import SoftFork.History.Header
import SoftFork.Json.Record

/-!
# JSON forms of hashes and headers

Thirty-two bytes are written as an array of thirty-two numbers, in the order in
which they are stored.
-/

namespace SoftFork

instance : Form (Vector UInt8 32) where
  encode bytes := Form.encode bytes.toList
  decode v := (Form.decode v).bind bytes32?

instance : Form BlockHash where
  encode h := Form.encode h.bytes
  decode v := (Form.decode v).map BlockHash.mk

instance : Form Header where
  encode h := .fields
    [("version", Form.encode h.version),
     ("prev_block_hash", Form.encode h.parent),
     ("merkle_root", Form.encode h.merkleRoot),
     ("timestamp", Form.encode h.time),
     ("bits", Form.encode h.bits),
     ("nonce", Form.encode h.nonce)]
  decode v := do
    let [version, parent, merkleRoot, time, bits, nonce] ←
      v.record ["version", "prev_block_hash", "merkle_root", "timestamp", "bits", "nonce"] | none
    return {
      version := ← Json.required version
      parent := ← Json.required parent
      merkleRoot := ← Json.required merkleRoot
      time := ← Json.required time
      bits := ← Json.required bits
      nonce := ← Json.required nonce }

end SoftFork
