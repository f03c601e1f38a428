/-
  DocExpand.Proofs.Engine.Encoded — the string directive that writes bytes down.

  What it writes at the host is base64 text of its input's bytes: those of a string itself, those
  of the compact text of any other node (`Source`). The text is well-formed and as long as it has
  to be, and reading it gives exactly these bytes (`base64_reversible`).
-/

import DocExpand.Proofs.Base64
import DocExpand.Proofs.Engine.Landed

namespace DocExpand.Engine

variable {e : Engine} {doc d d' node : Json} {i : Invocation} {v : Directive} {key : String} {written : Json}
  {ms : Members Json}

/-- The bytes that stand for a node: a string's own, or those of its compact text. -/
inductive Source : Json → ByteArray → Prop
  | string (s : String) : Source (.str s) s.toUTF8
  | other {node : Json} : node.kind ≠ .string → Source node node.encode

theorem source_bytes (node : Json) : Source node (sourceBytes node) := by
  cases node with
  | str s => exact .string s
  | null | bool _ | num _ | arr _ | obj _ => exact .other fun h => nomatch h

/-- The text of bytes, as a reader of base64 needs it. -/
structure Reversible (bytes : ByteArray) (text : String) : Prop where
  wellFormed : Base64.WellFormed text.toList
  length : text.length = 4 * ((bytes.size + 2) / 3)
  decoded : Base64.decode text.toList = some bytes.data.toList

theorem reversible_encodeBytes (bytes : ByteArray) : Reversible bytes (Base64.encodeBytes bytes) := by
  have hchars : (Base64.encodeBytes bytes).toList = Base64.encode bytes.data.toList := String.toList_ofList
  have hdecoded := Base64.decode_encode bytes.data.toList
  constructor
  · rw [hchars]
    exact Base64.wellFormed_of_decode hdecoded
  · rw [← String.length_toList, hchars, Base64.length_encode]
    rfl
  · rw [hchars, hdecoded]

/-- The string that is written at the host is base64 text of the input's bytes, and gives them back. -/
theorem base64_reversible (hd : d.Sound) (ho : d.Ordered) (h : Ready e doc i v key written ms d) (hv : v.verb = .asBase64)
    (ha : (e.apply i).runOn d = (.ok (), d')) :
    ∃ node bytes text, Locator.resolve i.input d = some node ∧ Source node bytes ∧ Landed e i (.str text) d d' ∧
      Reversible bytes text := by
  obtain ⟨slot, hout, -, hland⟩ := h.landed hd ho ha
  unfold outcome at hout
  simp only [hv] at hout
  obtain ⟨node, hr, hslot⟩ := Option.map_eq_some_iff.mp hout
  exact ⟨node, sourceBytes node, _, hr, source_bytes node, hland _ hslot.symm, reversible_encodeBytes _⟩

/-- A string of two bytes as an argument sibling, and an object as an argument. -/
def bytesBeside : Json := .obj [
  ("a", .obj [("kubegen.String.AsBASE64", .bool true)]),
  ("a_args", .str "é")]

def besideText : Invocation := plain.bind bytesBeside [.key "a"] ⟨.string, .d, .asBase64⟩ "kubegen.String.AsBASE64" (.bool true)

theorem base64_reversible_beside :
    plain.scan bytesBeside = .ok [besideText] ∧
      (plain.apply besideText).runOn bytesBeside = (.ok (), .obj [("a", .str "w6k=")]) ∧
      Base64.decode "w6k=".toList = some [0xC3, 0xA9] := by
  have hd : bytesBeside.Sound := by decide
  have ho : bytesBeside.Ordered := by decide
  have hw : Locator.walk [.key "a"] bytesBeside = some (.obj [("kubegen.String.AsBASE64", .bool true)]) := by decide
  have hready := ready_bind (e := plain) hw ⟨.string, .d, .asBase64⟩ "kubegen.String.AsBASE64" (.bool true)
  have hrun : (plain.apply besideText).runOn bytesBeside = (.ok (), .obj [("a", .str "w6k=")]) := by rfl
  refine ⟨by rfl, hrun, ?_⟩
  obtain ⟨node, bytes, text, hr, hsource, hland, hback⟩ := base64_reversible hd ho hready rfl hrun
  have hhere : some (Json.str "w6k=") = some (.str text) := hland.here (by decide +kernel)
  have hnode : some (Json.str "é") = some node := hr
  cases hhere
  cases hnode
  cases hsource with
  | string s => exact hback.decoded
  | other hk => exact absurd rfl hk

end DocExpand.Engine
