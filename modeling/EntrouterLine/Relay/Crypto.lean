import EntrouterLine.Relay.Wire

/-!
# Tunnel encryption

`TunnelCrypto` binds a pre-shared key to the ChaCha20-Poly1305 cipher, which is a parameter here
(`Aead`): two functions of key, nonce and bytes. The nonce of a packet is its 64-bit sequence
number followed by four zero bytes; `makeNonce_inj` is all that it guarantees.
-/

set_option autoImplicit false

namespace EntrouterLine.Relay

open EntrouterLine.Lib.LittleEndian

def keySize : Nat := 32

/-- A 32-byte pre-shared key. -/
def Key := { bytes : Bytes // bytes.length = keySize }

instance : DecidableEq Key :=
  inferInstanceAs (DecidableEq { bytes : Bytes // bytes.length = keySize })

abbrev Nonce := Bytes

/-- The `chacha20poly1305` cipher: sealing is total, opening may fail. -/
structure Aead where
  encrypt : Key → Nonce → Bytes → Bytes
  decrypt : Key → Nonce → Bytes → Option Bytes

/-- Sealing appends a tag of `authTagSize` bytes. -/
def Aead.TagLength (aead : Aead) : Prop :=
  ∀ key nonce payload, (aead.encrypt key nonce payload).length = payload.length + authTagSize

/-- Opening undoes sealing under the same key and nonce. -/
def Aead.Opens (aead : Aead) : Prop :=
  ∀ key nonce payload, aead.decrypt key nonce (aead.encrypt key nonce payload) = some payload

/-- The cipher bound to one pre-shared key. -/
structure TunnelCrypto where
  key : Key
  deriving DecidableEq

inductive CryptoError where
  | decryptionFailed
  deriving DecidableEq

/-- `make_nonce`: the sequence number in eight little-endian bytes, then four zero bytes. -/
def makeNonce (seq : UInt64) : Nonce :=
  toBytes 8 seq.toNat ++ List.replicate 4 0

def TunnelCrypto.encrypt (aead : Aead) (c : TunnelCrypto) (seq : UInt64) (payload : Bytes) :
    Bytes :=
  aead.encrypt c.key (makeNonce seq) payload

def TunnelCrypto.decrypt (aead : Aead) (c : TunnelCrypto) (seq : UInt64) (ciphertext : Bytes) :
    Except CryptoError Bytes :=
  match aead.decrypt c.key (makeNonce seq) ciphertext with
  | some plaintext => .ok plaintext
  | none => .error .decryptionFailed

theorem makeNonce_inj {seq seq' : UInt64} (h : makeNonce seq = makeNonce seq') : seq = seq' := by
  -- the four zero bytes are common to all nonces
  have hlow : toBytes 8 seq.toNat = toBytes 8 seq'.toNat :=
    (List.append_inj h (by simp)).1
  exact UInt64.toNat_inj.mp (toBytes_inj seq.toNat_lt seq'.toNat_lt hlow)

theorem decrypt_eq_ok_iff {aead : Aead} {c : TunnelCrypto} {seq : UInt64} {ct pt : Bytes} :
    c.decrypt aead seq ct = .ok pt ↔ aead.decrypt c.key (makeNonce seq) ct = some pt := by
  rw [TunnelCrypto.decrypt]
  cases aead.decrypt c.key (makeNonce seq) ct <;> simp

/-! ## A cipher that meets both laws -/

/-- The tag of `tagAead`: the nonce and the key, cut to the tag's length. -/
def tagOf (key : Key) (nonce : Nonce) : Bytes := (nonce ++ key.val).take authTagSize

/-- A stand-in for the cipher: the payload in the clear, followed by `tagOf`, which opening
checks. -/
def tagAead : Aead where
  encrypt key nonce payload := payload ++ tagOf key nonce
  decrypt key nonce ciphertext :=
    if ciphertext.drop (ciphertext.length - authTagSize) = tagOf key nonce then
      some (ciphertext.take (ciphertext.length - authTagSize))
    else none

theorem length_tagOf (key : Key) (nonce : Nonce) : (tagOf key nonce).length = authTagSize := by
  have hkey : key.val.length = 32 := key.property
  rw [tagOf, List.length_take, List.length_append, hkey]
  unfold authTagSize
  omega

theorem tagAead_tagLength : tagAead.TagLength := by
  intro key nonce payload
  show (payload ++ tagOf key nonce).length = _
  rw [List.length_append, length_tagOf]

theorem tagAead_opens : tagAead.Opens := by
  intro key nonce payload
  have hlen : (payload ++ tagOf key nonce).length - authTagSize = payload.length := by
    rw [List.length_append, length_tagOf]
    omega
  simp only [tagAead, hlen, List.drop_left, List.take_left, if_true]

end EntrouterLine.Relay
