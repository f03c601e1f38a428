/-
  DocExpand.Proofs.Engine.Texts — the string directives that write a node down.

  One writes the compact text of its input, the other the block text of what that compact text
  reads as. In a document without floats nothing is lost on the way (`text_exact`): the text
  that comes to stand at the host decodes to the input, the block text is the one of the input
  itself, and the input can always be encoded.
-/

import DocExpand.Proofs.Engine.Landed
import DocExpand.Proofs.Engine.Store
import DocExpand.Proofs.Json.Exact

namespace DocExpand.Engine

open Edit

variable {e : Engine} {doc d d' node : Json} {i : Invocation} {v : Directive} {key : String} {written : Json}
  {ms : Members Json} {cause : Error}

/-- Whatever stands at a place of a document without floats is what its text reads as. -/
theorem input_exact (hd : d.Sound) (ho : d.Ordered) (hf : d.hasFloat = false) {p : Locator}
    (hr : Locator.resolve p d = some node) : Json.decode node.encode = some node := by
  have hnesting := Locator.resolve_nesting hr
  have hlimit := hd.shallow
  exact Json.decode_encode_exact (Locator.resolve_ordered ho hr) (Json.hasFloat_resolve hf hr) (by omega)

/-- Neither directive meets a node that it cannot encode. -/
theorem act_not_encode (hd : d.Sound) (ho : d.Ordered) (hf : d.hasFloat = false)
    (hv : i.directive.verb = .asJson ∨ i.directive.verb = .asYaml) (h : (e.act i).runOn d = (.error cause, d')) :
    ∀ text, cause ≠ .encode text := by
  have htold := e.deed_told i (arm? i d) (Locator.resolve i.input d)
  rw [runOn_act] at h
  cases hdeed : e.deed i (arm? i d) (Locator.resolve i.input d) with
  | refuse source =>
    rw [hdeed] at h htold
    cases h
    cases htold with
    | encode hr hfails =>
      rw [input_exact hd ho hf hr] at hfails
      cases hfails
    | input | type | parameter | missing => exact fun _ h => nomatch h
  | write node =>
    rw [hdeed] at h
    cases (put_refused.mp h).2 <;> exact fun _ h => nomatch h
  | leave arm =>
    rw [hdeed] at htold
    obtain ⟨_, hchoose, -⟩ := htold
    rcases hv with hv | hv <;> cases hv.symm.trans hchoose
  | load payload =>
    rw [hdeed] at htold
    rcases hv with hv | hv <;> cases hv.symm.trans htold.1

/-- What the two directives write of their input. -/
def Inscribed (v : Directive) (node : Json) (text : String) : Prop :=
  (v.verb = .asJson → Value.ofBytes text.toUTF8 = .ok ⟨node, ""⟩) ∧ (v.verb = .asYaml → text = Yaml.render node)

theorem outcome_inscribed {host : Locator} {argument slot : Slot} (hv : v.verb = .asJson ∨ v.verb = .asYaml)
    (hexact : ∀ node, argument = some node → Json.decode node.encode = some node)
    (h : e.outcome true v host key written argument ms = some slot) :
    ∃ node text, argument = some node ∧ slot = some (.str text) ∧ Inscribed v node text := by
  unfold outcome at h
  rcases hv with hv | hv
  · simp only [hv] at h
    obtain ⟨node, harg, rfl⟩ := Option.map_eq_some_iff.mp h
    have hbytes : Value.ofBytes node.render.toUTF8 = .ok ⟨node, ""⟩ := by
      change Value.ofBytes node.encode = _
      rw [Value.ofBytes, hexact node harg]
    exact ⟨node, node.render, harg, rfl, fun _ => hbytes, fun hother => nomatch hv.symm.trans hother⟩
  · simp only [hv] at h
    obtain ⟨content, hc, rfl⟩ := Option.map_eq_some_iff.mp h
    obtain ⟨node, harg, hdecoded⟩ := Option.bind_eq_some_iff.mp hc
    have hsame : node = content := Option.some.inj ((hexact node harg).symm.trans hdecoded)
    subst hsame
    exact ⟨node, Yaml.render node, harg, rfl, fun hother => (nomatch hv.symm.trans hother), fun _ => rfl⟩

/-- In a document without floats the text of the input is lossless, and encoding it never fails. -/
theorem text_exact (hd : d.Sound) (ho : d.Ordered) (hf : d.hasFloat = false) (h : Ready e doc i v key written ms d)
    (hv : v.verb = .asJson ∨ v.verb = .asYaml) :
    (∀ cause d', (e.apply i).runOn d = (.error cause, d') → ∀ text, cause.rootCause ≠ .encode text) ∧
      ∀ d', (e.apply i).runOn d = (.ok (), d') → ∃ node text,
        Locator.resolve i.input d = some node ∧ Landed e i (.str text) d d' ∧ Inscribed v node text := by
  constructor
  · intro cause d' ha
    have hverb : i.directive.verb = .asJson ∨ i.directive.verb = .asYaml := by rwa [h.directive]
    obtain ⟨-, source, d1, hact, rfl⟩ := (h.error_iff hd).mp ha
    obtain ⟨-, source', hwrap, hsource⟩ := apply_fails ha
    cases hwrap
    change ∀ text, source.rootCause ≠ .encode text
    rw [Error.rootCause_of_wrapped hsource]
    exact act_not_encode hd ho hf hverb hact
  · intro d' ha
    obtain ⟨slot, hout, -, hland⟩ := h.landed hd ho ha
    obtain ⟨node, text, hr, hslot, htext⟩ := outcome_inscribed hv (fun node hr => input_exact hd ho hf hr) hout
    exact ⟨node, text, hr, hland _ hslot, htext⟩

/-- An argument sibling with a quote in a key, a control character and the largest integer. -/
def quoting : Json := .obj [
  ("a", .obj [("kubegen.String.AsJSON", .bool true)]),
  ("a_args", .obj [("\"", .arr [.str "\n", .num (.int 18446744073709551615 (by decide))])])]

def quotingText : Invocation := plain.bind quoting [.key "a"] ⟨.string, .d, .asJson⟩ "kubegen.String.AsJSON" (.bool true)

theorem text_exact_quoting :
    let text := "\x7b\"\\\"\":[\"\\n\",18446744073709551615]\x7d"
    plain.scan quoting = .ok [quotingText] ∧
      (plain.apply quotingText).runOn quoting = (.ok (), .obj [("a", .str text)]) ∧
      ∃ node, Locator.resolve [.key "a_args"] quoting = some node ∧ Value.ofBytes text.toUTF8 = .ok ⟨node, ""⟩ := by
  intro text
  have hd : quoting.Sound := by decide
  have ho : quoting.Ordered := by decide
  have hf : quoting.hasFloat = false := by decide
  have hw : Locator.walk [.key "a"] quoting = some (.obj [("kubegen.String.AsJSON", .bool true)]) := by decide
  have hready := ready_bind (e := plain) hw ⟨.string, .d, .asJson⟩ "kubegen.String.AsJSON" (.bool true)
  have hrun : (plain.apply quotingText).runOn quoting = (.ok (), .obj [("a", .str text)]) := by rfl
  refine ⟨by rfl, hrun, ?_⟩
  obtain ⟨-, hok⟩ := text_exact hd ho hf hready (.inl rfl)
  obtain ⟨node, text', hr, hland, hbytes, -⟩ := hok _ hrun
  have hhere : some (Json.str text) = some (.str text') := hland.here (by decide +kernel)
  cases hhere
  exact ⟨node, hr, hbytes rfl⟩

end DocExpand.Engine
