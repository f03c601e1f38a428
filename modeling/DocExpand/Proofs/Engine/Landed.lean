/-
  DocExpand.Proofs.Engine.Landed — an invocation that leaves a node in its host's place.

  Every verb but a choice without its arm does: the document is then the one before with the
  node at the host, less the argument sibling (`Ready.landed`). An invocation that is bound to
  an object of a sound document fails only in its verb, for once the node stands the sibling
  can go (`Ready.error_iff`).
-/

import DocExpand.Proofs.Engine.Failure
import DocExpand.Proofs.Engine.Paths

namespace DocExpand.Engine

open Edit

variable {e : Engine} {doc d d' : Json} {i : Invocation} {v : Directive} {host : Locator} {key : String}
  {written : Json} {ms : Members Json}

theorem seat_some (host : Locator) (node : Json) : seat host (some node) = some node := by
  unfold seat
  split <;> rfl

/-- The node stands at the host and the argument sibling is gone. With a suffix for arguments the sibling is another
    place than the host, and the rest of the document is as it was. -/
structure Landed (e : Engine) (i : Invocation) (node d d' : Json) : Prop where
  edited : ∃ d1, Locator.replace? i.host node d = some d1 ∧ swept i d1 = d'
  here : e.config.argsSuffix ≠ "" → Locator.walk i.host d' = some node
  rest : e.config.argsSuffix ≠ "" → Left i (some node) d d'

/-- Any member of any object can be bound. -/
theorem ready_bind (hw : Locator.walk host d = some (.obj ms)) (v : Directive) (key : String) (argument : Json) :
    Ready e d (e.bind d host v key argument) v key argument ms d := by
  refine ⟨by rw [bind_host], by rw [bind_host, hw], fun q k _ hr => ?_⟩
  cases hsibling : Locator.walk (q ++ [.key (e.siblingKey k)]) d with
  | none => rfl
  | some x =>
    rw [Locator.resolve_of_walk hsibling] at hr
    cases hr

/-- An invocation can be applied to the document that it was found in. -/
theorem Scanned.ready_found {found : List Invocation} (h : e.Scanned doc found) (hd : doc.Sound) (hi : i ∈ found) :
    ∃ target v key written ms, e.Visited doc i.host target ∧ e.host? target = some (v, key, written) ∧
      Ready e doc i v key written ms doc := by
  have hclear : Clear [] i.host := ⟨by simp, by simp⟩
  have hduring : During doc [] doc := ⟨hd, h.ordered, fun p _ => .refl p doc⟩
  exact h.ready hi hclear hduring

namespace Ready

variable (h : Ready e doc i v key written ms d)

include h

/-- The sibling of a member stands beside it, in the document that was scanned. -/
theorem sibling_eq {s : Locator} (hs : i.argumentSibling? = some s) :
    ∃ q k, i.host = q ++ [.key k] ∧ s = q ++ [.key (e.siblingKey k)] ∧ (Locator.resolve s doc).isSome := by
  rw [h.bound, bind_argumentSibling?] at hs
  split at hs
  · exact argumentSibling?_eq_some.mp hs
  · cases hs

theorem apply_iff (hd : d.Sound) : (e.apply i).runOn d = (.ok (), d') ↔
    ∃ slot d1, e.outcome true v i.host key written (Locator.resolve i.input d) ms = some slot ∧
      fits i.host slot = true ∧ place i.host slot d = some d1 ∧ swept i d1 = d' := by
  have hok : (e.apply (e.bind doc i.host v key written)).runOn d = (.ok (), d') ↔ _ := apply_ok hd h.resolve
  rwa [← h.bound] at hok

theorem landed (hd : d.Sound) (ho : d.Ordered) (ha : (e.apply i).runOn d = (.ok (), d')) :
    ∃ slot, e.outcome true v i.host key written (Locator.resolve i.input d) ms = some slot ∧
      fits i.host slot = true ∧ ∀ node, slot = some node → Landed e i node d d' := by
  obtain ⟨slot, d1, hout, hfits, hplace, hswept⟩ := (h.apply_iff hd).mp ha
  refine ⟨slot, hout, hfits, fun node hslot => ?_⟩
  subst hslot
  have hleft : e.config.argsSuffix ≠ "" → Left i (some node) d d' := by
    intro hsuffix
    obtain ⟨slot, hout', hleft⟩ := h.applied hsuffix hd ho ha
    rw [hout] at hout'
    cases hout'
    exact hleft
  refine ⟨⟨d1, hplace, hswept⟩, fun hsuffix => ?_, hleft⟩
  have hhere := (hleft hsuffix).here []
  rwa [List.append_nil, seat_some] at hhere

/-- It fails where its verb does, and with the same cause. -/
theorem error_iff (hd : d.Sound) {cause : Error} : (e.apply i).runOn d = (.error cause, d') ↔
    d' = d ∧ ∃ source d1, (e.act i).runOn d = (.error source, d1) ∧ cause = e.wrap i source := by
  constructor
  · intro ha
    rcases hact : (e.act i).runOn d with ⟨source | u, d1⟩
    · rw [apply_error hact] at ha
      cases ha
      exact ⟨rfl, source, d1, rfl, rfl⟩
    · -- the verb has worked, so the sibling could be removed
      have hact' := hact
      rw [h.bound] at hact'
      obtain ⟨slot, -, hfits, hplace⟩ := (act_ok hd h.resolve).mp hact'
      have hsibling : ∀ s, i.argumentSibling? = some s → s ≠ [] := by
        intro s hs
        rw [h.bound] at hs
        exact sibling_ne_nil hs
      have hgone := (removeSibling_ok (place_sound hd h.resolve hfits hplace) hsibling).mpr rfl
      rw [(apply_performed i).mpr ⟨d1, hact, hgone⟩] at ha
      cases ha
  · rintro ⟨rfl, source, d1, hact, rfl⟩
    exact apply_error hact

end Ready

end DocExpand.Engine
