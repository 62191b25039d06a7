import EdgeCausal.Encoding.Json
import EdgeCausal.Encoding.Sha1
import EdgeCausal.Engine.State

/-!
# `Engine.CaseId` — the id of a case

A case is stored under the first 64 bits of the SHA-1 of its fingerprint's canonical JSON. `promoteCase`
takes the hash as a parameter; this is the one the code uses.
-/

namespace EdgeCausal

open Lib

/-- The fingerprint as JSON, members in key order. -/
def keyJson (fp : CaseKey) : List Char :=
  Json.object
    [("motif", Json.array (fp.motif.map fun m =>
        Json.object [("dst", Json.string m.2), ("src", Json.string m.1)])),
      ("signal", Json.string fp.signal),
      ("stressors", Json.array (fp.stressors.map Json.string)),
      ("victims", Json.array (fp.victims.map Json.string)),
      ("witness_kind", match fp.witnessKind with
        | some kind => Json.string kind.token
        | none => ['n', 'u', 'l', 'l'])]

/-- `hashlib.sha1(key_json.encode("utf-8")).hexdigest()[:16]`, as the number it is the hex of. The text is
    ASCII, so its bytes are its characters. -/
def caseHash (fp : CaseKey) : CaseId :=
  BitVec.extractLsb' 96 64 (sha1 ((keyJson fp).map fun c => BitVec.ofNat 8 c.toNat))

end EdgeCausal
