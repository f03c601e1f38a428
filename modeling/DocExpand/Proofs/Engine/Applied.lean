/-
  DocExpand.Proofs.Engine.Applied — what carrying out one invocation does to a document.

  What a verb puts in the place of its object is the outcome of its directive
  (`outcome_deed`); an import is one equation about the document it runs on (`runOn_load`).
  Where an invocation is bound to an object of a sound document, its verb succeeds exactly
  when its directive has an outcome that fits at the place, and then puts it there
  (`act_ok`); applying also removes the argument sibling (`apply_ok`).
-/

import DocExpand.Proofs.Engine.Deeds
import DocExpand.Proofs.Engine.Evaluation
import DocExpand.Proofs.Engine.Scanned
import DocExpand.Proofs.Locator.Walk

namespace DocExpand.Engine

open Edit

variable {e : Engine} {i : Invocation} {d d' : Json}

/-! ## Imports -/

/-- An import into the object at `host`: everything is checked before its invocation is removed. -/
theorem runOn_load_members {host : Locator} {key : String} (produces : Kind) (payload : ByteArray) (d : Json) :
    (e.load (host ++ [.key key]) produces payload).runOn d =
      if produces = .array ∧ host = [] then (.error (.merge .arrayAtRoot), d)
      else match targetMembers host d with
        | .error x => (.error x, d)
        | .ok ms =>
          match Json.decode payload with
          | none => (.error (.importDecode payload), d)
          | some imported =>
            match e.combine produces (Members.erase key ms) imported with
            | .error x => (.error x, d)
            | .ok combined =>
              match (delete (host ++ [.key key])).runOn d with
              | (.error x, d') => (.error x, d')
              | (.ok (), d') => (put host (.tree combined)).runOn d' := by
  have hroot : (host ++ [Segment.key key]).depth = 1 ↔ host = [] := by
    rw [Locator.depth, List.length_append, List.length_singleton, Nat.add_eq_right, List.length_eq_zero_iff]
  have htarget : (if host = [] then Locator.root else (host ++ [Segment.key key]).dropLast) = host := by
    split
    · rename_i h
      exact h.symm
    · exact List.dropLast_concat
  unfold load
  simp only [hroot, htarget]
  by_cases ha : produces = .array ∧ host = []
  · rw [if_pos ha, if_pos ha]
    rfl
  rw [if_neg ha, if_neg ha]
  simp only [runOn_bind, runOn_get, runOn_lift]
  cases targetMembers host d with
  | error x => rfl
  | ok ms =>
    have hwithout : withoutLast (host ++ [.key key]) ms = Members.erase key ms := by
      rw [withoutLast, List.getLast?_concat]
    simp only [hwithout]
    cases Json.decode payload with
    | none => rfl
    | some imported =>
      simp only [runOn_bind, runOn_lift]
      cases e.combine produces (Members.erase key ms) imported with
      | error x => rfl
      | ok combined =>
        obtain ⟨r, d', hdelete⟩ : ∃ r d', (delete (host ++ [.key key])).runOn d = (r, d') := ⟨_, _, rfl⟩
        simp only [hdelete]
        cases r with
        | error x => rfl
        | ok u =>
          by_cases hh : host = []
          · simp only [hh, if_true]
            rfl
          · simp only [hh, if_false]

theorem runOn_load {host : Locator} {key : String} {ms : Members Json} (produces : Kind) (payload : ByteArray)
    (hr : Locator.resolve host d = some (.obj ms)) :
    (e.load (host ++ [.key key]) produces payload).runOn d =
      if produces = .array ∧ host = [] then (.error (.merge .arrayAtRoot), d)
      else match Json.decode payload with
        | none => (.error (.importDecode payload), d)
        | some imported =>
          match e.combine produces (Members.erase key ms) imported with
          | .error x => (.error x, d)
          | .ok combined =>
            match (delete (host ++ [.key key])).runOn d with
            | (.error x, d') => (.error x, d')
            | (.ok (), d') => (put host (.tree combined)).runOn d' := by
  have hmembers : targetMembers host d = .ok ms := by rw [targetMembers, hr]
  rw [runOn_load_members, hmembers]

/-- An import is combined with an object. -/
theorem load_target {host : Locator} {key : String} {produces : Kind} {payload : ByteArray}
    (h : (e.load (host ++ [.key key]) produces payload).runOn d = (.ok (), d')) :
    ∃ ms, Locator.resolve host d = some (.obj ms) := by
  rw [runOn_load_members, targetMembers] at h
  split at h
  · cases h
  · cases hr : Locator.resolve host d with
    | none =>
      rw [hr] at h
      cases h
    | some n =>
      rw [hr] at h
      cases n with
      | null | bool _ | num _ | str _ | arr _ => cases h
      | obj ms => exact ⟨ms, rfl⟩

/-! ## Putting an outcome in place -/

/-- The document with an outcome at a place; what has gone is null among items. -/
def place (host : Locator) (slot : Slot) (d : Json) : Option Json :=
  match slot with
  | some node => Locator.replace? host node d
  | none =>
    match host.getLast? with
    | some (.key _) => Locator.remove? host d
    | some (.index _) => Locator.replace? host .null d
    | none => none

section Place

variable {host : Locator} {n node : Json}

theorem fits_some : fits host (some node) = true ↔
    host.length + node.nesting ≤ Json.nestingLimit ∧ (host = [] → node.kind.isContainer = true) := by
  unfold fits
  cases host <;> simp

theorem replace?_isSome (hr : Locator.resolve host d = some n) (node : Json) :
    ∃ d', Locator.replace? host node d = some d' ∧ Locator.resolve host d' = some node :=
  Locator.modify?_some hr rfl

theorem replace?_sound (hd : d.Sound) (hr : Locator.resolve host d = some n)
    (h : Locator.replace? host node d = some d') : d'.Sound ↔ fits host (some node) = true := by
  have hn := @Locator.modify?_nesting host d d' n node (fun _ => some node) hr rfl h
  have hl := hd.shallow
  rw [fits_some]
  constructor
  · intro hs
    refine ⟨Nat.le_trans hn.1 hs.shallow, fun he => ?_⟩
    subst he
    cases h
    exact hs.container
  · intro hf
    refine ⟨?_, by omega⟩
    by_cases he : host = []
    · have hc := hf.2 he
      subst he
      cases h
      exact hc
    · rw [Locator.replace?_kind he h]
      exact hd.container

theorem written_there {value : NewValue} (hr : Locator.resolve host d = some n) (hv : value.toJson = .ok node)
    (h : Locator.replace? host node d = some d') : written host value d = .ok d' := by
  unfold written
  rw [hv]
  change (Locator.write? host node d).elim _ _ = _
  rw [Locator.write?_eq_replace? hr, h]
  rfl

theorem put_ok {value : NewValue} (hd : d.Sound) (hr : Locator.resolve host d = some n) (hv : value.toJson = .ok node) :
    (put host value).runOn d = (.ok (), d') ↔ fits host (some node) = true ∧ place host (some node) d = some d' := by
  obtain ⟨d'', hw, -⟩ := replace?_isSome hr node
  rw [runOn_put, settled_ok, written_there hr hv hw, place, hw, Except.ok.injEq, Option.some.injEq]
  constructor
  · intro h
    obtain ⟨rfl, hs⟩ := h
    exact ⟨(replace?_sound hd hr hw).mp hs, rfl⟩
  · intro h
    obtain ⟨hf, rfl⟩ := h
    exact ⟨rfl, (replace?_sound hd hr hw).mpr hf⟩

theorem fits_null {ms : Members Json} (hd : d.Sound) (hr : Locator.resolve host d = some (.obj ms)) (hne : host ≠ []) :
    fits host (some .null) = true := by
  have hn := Locator.resolve_nesting hr
  have hl := hd.shallow
  rw [Json.nesting] at hn
  exact fits_some.mpr ⟨by simp only [Json.nesting]; omega, fun h => absurd h hne⟩

/-- What fits in the place of a node can be put there. -/
theorem place_isSome {slot : Slot} (hr : Locator.resolve host d = some n) (hf : fits host slot = true) :
    ∃ d1, place host slot d = some d1 := by
  cases slot with
  | some node =>
    obtain ⟨d1, h1, -⟩ := replace?_isSome hr node
    exact ⟨d1, h1⟩
  | none =>
    rcases List.eq_nil_or_concat' host with rfl | ⟨q, last, rfl⟩
    · cases hf
    · rw [place, List.getLast?_concat]
      cases last with
      | key k =>
        have hgone := Locator.remove?_isSome (p := q ++ [.key k]) (by simp) d
        rw [hr] at hgone
        exact Option.isSome_iff_exists.mp hgone
      | index n =>
        obtain ⟨d1, h1, -⟩ := replace?_isSome hr .null
        exact ⟨d1, h1⟩

end Place

/-! ## The verb of a bound invocation -/

section Act

variable {host : Locator} {key : String} {ms : Members Json}

/-- Without the arm it chooses, a choice goes; among items it is null. -/
theorem leave_ok (hd : d.Sound) (hr : Locator.resolve i.host d = some (.obj ms)) (arm : String) :
    ((Deed.leave arm).edit e i).runOn d = (.ok (), d') ↔ fits i.host none = true ∧ place i.host none d = some d' := by
  rcases List.eq_nil_or_concat' i.host with hhost | ⟨p, last, hhost⟩
  · rw [hhost]
    constructor
    · intro h
      rw [Deed.edit, hhost] at h
      cases h
    · intro h
      cases h.1
  · have hne : p ++ [last] ≠ [] := by simp
    have hfits : fits (p ++ [last]) none = true := by simp [fits]
    simp only [Deed.edit, hhost, place, List.getLast?_concat, hfits, true_and]
    cases last with
    | key k => exact delete_ok hd
    | index m =>
      rw [hhost] at hr
      have hput : (put (p ++ [.index m]) (.tree .null)).runOn d = (.ok (), d') ↔ _ := put_ok hd hr rfl
      rw [fits_null hd hr hne, place] at hput
      simpa using hput

theorem combine_ok {produces : Kind} {others : Members Json} {imported combined : Json} :
    e.combine produces others imported = .ok combined ↔
      (produces = .object ∧ ∃ incoming, imported = .obj incoming ∧
        combined = .obj (Json.mergeMembers e.config.mergePolicy others incoming)) ∨
      (produces = .array ∧ others = [] ∧ ∃ items, imported = .arr items ∧ combined = .arr items) := by
  unfold combine
  cases produces with
  | object =>
    cases imported with
    | obj incoming => simp [eq_comm]
    | null | bool _ | num _ | str _ | arr _ => simp
  | array =>
    by_cases ho : others = []
    · cases imported with
      | arr items => simp [ho, Json.kind, eq_comm]
      | null | bool _ | num _ | str _ | obj _ => simp [ho, Json.kind]
    · simp [ho]
  | null | boolean | number | string => simp

theorem outcome_choose {v : Directive} {host : Locator} {key : String} {written : Json} {argument slot : Slot}
    {ms : Members Json} (hv : v.verb = .choose) :
    e.outcome true v host key written argument ms = some slot ↔
      ∃ condition, argument = some (.bool condition) ∧ slot = Members.get? (armKey condition) ms := by
  unfold outcome
  rw [hv]
  cases argument with
  | none => simp
  | some node =>
    cases node with
    | bool condition => simp [eq_comm]
    | null | num _ | str _ | arr _ | obj _ => simp

theorem outcome_lookup {v : Directive} {host : Locator} {key : String} {written : Json} {argument slot : Slot}
    {ms : Members Json} (hv : v.verb = .lookup) :
    e.outcome true v host key written argument ms = some slot ↔ ∃ name found, argument = some (.str name) ∧
      e.parameter? name = some found ∧ found.kind = v.produces ∧ slot = some found := by
  unfold outcome
  rw [hv]
  cases argument with
  | none => simp
  | some node =>
    cases node with
    | str name =>
      cases hf : e.parameter? name with
      | none => simp [hf]
      | some found => simp [hf, eq_comm]
    | null | bool _ | num _ | arr _ | obj _ => simp

theorem outcome_load {v : Directive} {host : Locator} {key : String} {written : Json} {argument slot : Slot}
    {ms : Members Json} (hv : v.verb = .load) :
    e.outcome true v host key written argument ms = some slot ↔ Members.contains key ms = true ∧
      ∃ imported combined, (e.imports host written).bind Json.decode = some imported ∧
        e.combine v.produces (Members.erase key ms) imported = .ok combined ∧
        ¬ (v.produces = .array ∧ host = []) ∧ slot = some combined := by
  unfold outcome
  rw [hv]
  simp only [combine_ok, Bool.not_true, Bool.false_or]
  by_cases hc : Members.contains key ms = true
  · rw [if_pos hc, Option.bind_eq_some_iff]
    refine ⟨fun ⟨imported, hi, h⟩ => ⟨hc, ?_⟩, fun ⟨_, imported, combined, hi, h, hroot, hslot⟩ => ⟨imported, hi, ?_⟩⟩
    · split at h
      · rename_i hp
        cases h
        exact ⟨_, _, hi, .inl ⟨hp, _, rfl, rfl⟩, fun h => (nomatch hp.symm.trans h.1), rfl⟩
      · rename_i hp
        split at h
        · rename_i ho
          cases h
          exact ⟨_, _, hi, .inr ⟨hp, ho.1, _, rfl, rfl⟩, fun h => ho.2 h.2, rfl⟩
        · cases h
      · cases h
    · rcases h with ⟨hp, incoming, rfl, rfl⟩ | ⟨hp, ho, items, rfl, rfl⟩
      · simp only [hp, hslot]
      · have hh : host ≠ [] := fun h => hroot ⟨hp, h⟩
        simp only [hp, hslot]
        rw [if_pos ⟨ho, hh⟩]
  · rw [if_neg hc]
    exact ⟨fun h => (nomatch h), fun h => absurd h.1 hc⟩

/-- Only a choice, a look-up or an import can put anything but a string. -/
theorem outcome_text {v : Directive} {host : Locator} {key : String} {written : Json} {argument slot : Slot}
    {ms : Members Json} (ho : e.outcome true v host key written argument ms = some slot)
    (hv : ¬ (v.verb = .choose ∨ v.verb = .lookup ∨ v.verb = .load)) : ∃ text, slot = some (.str text) := by
  unfold outcome at ho
  cases hverb : v.verb with
  | choose => exact absurd (.inl hverb) hv
  | lookup => exact absurd (.inr (.inl hverb)) hv
  | load => exact absurd (.inr (.inr hverb)) hv
  | join =>
    rw [hverb] at ho
    simp only at ho
    split at ho
    · cases ho
      exact ⟨_, rfl⟩
    · cases ho
  | asJson | asYaml | asBase64 =>
    rw [hverb] at ho
    obtain ⟨j, -, ho⟩ := Option.map_eq_some_iff.mp ho
    cases ho
    exact ⟨_, rfl⟩

/-- Removing a member of the object changes nothing that replacing the object would leave. -/
theorem delete_key (hd : d.Sound) (hr : Locator.resolve host d = some (.obj ms)) (hk : Members.contains key ms = true) :
    ∃ d1, (delete (host ++ [.key key])).runOn d = (.ok (), d1) ∧ d1.Sound ∧
      Locator.resolve host d1 = some (.obj (Members.erase key ms)) ∧
      ∀ node, Locator.replace? host node d1 = Locator.replace? host node d := by
  have hchild : Json.eraseChild? (.obj ms) (.key key) = some (.obj (Members.erase key ms)) := if_pos hk
  obtain ⟨d1, hd1, hr1⟩ := Locator.modify?_some (f := (·.eraseChild? (.key key))) hr hchild
  have hremove : Locator.remove? (host ++ [.key key]) d = some d1 := by rw [Locator.remove?_snoc, hd1]
  refine ⟨d1, (delete_ok hd).mpr hremove, remove?_sound hd hremove, hr1, fun node => ?_⟩
  change Locator.modify? _ host d1 = Locator.modify? _ host d
  rw [Locator.modify?_modify? hd1]
  exact Locator.modify?_congr hr (by rw [hchild]; rfl)

/-- There is nothing to remove without the member. -/
theorem delete_absent (hr : Locator.resolve host d = some (.obj ms)) (hk : Members.contains key ms = false) :
    (delete (host ++ [.key key])).runOn d = (.error (.branchNotFound (host ++ [.key key])), d) := by
  have hchild : Json.eraseChild? (.obj ms) (.key key) = none :=
    if_neg (by rw [Segment.text, hk]; exact Bool.false_ne_true)
  rw [runOn_delete, removed, if_neg (by simp), Locator.remove?_snoc, Locator.modify?_none hr hchild]
  rfl

/-- The delete changes the object itself, and the write then replaces it. -/
theorem replaced_ok {combined : Json} (hd : d.Sound) (hr : Locator.resolve host d = some (.obj ms)) :
    (match (delete (host ++ [.key key])).runOn d with
      | (.error x, d') => (.error x, d')
      | (.ok (), d') => (put host (.tree combined)).runOn d') = (.ok (), d') ↔
      Members.contains key ms = true ∧ fits host (some combined) = true ∧ place host (some combined) d = some d' := by
  cases hk : Members.contains key ms with
  | false =>
    rw [delete_absent hr hk]
    refine ⟨fun h => ?_, fun h => absurd h.1 Bool.false_ne_true⟩
    cases h
  | true =>
    obtain ⟨d1, hdelete, hs1, hr1, hsame⟩ := delete_key hd hr hk
    have hput : (put host (.tree combined)).runOn d1 = (.ok (), d') ↔ _ := put_ok hs1 hr1 rfl
    rw [hdelete]
    simp only [hput, place, hsame, true_and]

/-- An import at an object of a sound document: its outcome in place. -/
theorem load_ok {v : Directive} {written : Json} {argument : Slot} {payload : ByteArray} (hd : d.Sound)
    (hr : Locator.resolve host d = some (.obj ms)) (hv : v.verb = .load) (hp : e.imports host written = some payload) :
    (e.load (host ++ [.key key]) v.produces payload).runOn d = (.ok (), d') ↔
      ∃ slot, e.outcome true v host key written argument ms = some slot ∧ fits host slot = true ∧
        place host slot d = some d' := by
  simp only [outcome_load hv, hp, Option.bind_some]
  rw [runOn_load _ _ hr]
  by_cases hroot : v.produces = .array ∧ host = []
  · rw [if_pos hroot]
    exact ⟨fun h => (nomatch h), fun ⟨_, ⟨_, _, _, _, _, h, _⟩, _⟩ => absurd hroot h⟩
  rw [if_neg hroot]
  cases hi : Json.decode payload with
  | none => exact ⟨fun h => (nomatch h), fun ⟨_, ⟨_, _, _, h, _⟩, _⟩ => (nomatch h)⟩
  | some imported =>
    simp only
    cases hc : e.combine v.produces (Members.erase key ms) imported with
    | error x =>
      refine ⟨fun h => (nomatch h), fun ⟨_, ⟨_, i, c, h, h', _⟩, _⟩ => ?_⟩
      cases h
      rw [hc] at h'
      cases h'
    | ok combined =>
      simp only
      rw [replaced_ok hd hr]
      constructor
      · intro h
        obtain ⟨hk, hf, hpl⟩ := h
        exact ⟨some combined, ⟨hk, imported, combined, rfl, hc, hroot, rfl⟩, hf, hpl⟩
      · intro h
        obtain ⟨slot, ⟨hk, i, c, h, hc', -, hs⟩, hf, hpl⟩ := h
        cases h
        rw [hc] at hc'
        cases hc'
        subst hs
        exact ⟨hk, hf, hpl⟩

/-- What a deed that is no import puts in the place of the object. -/
def Deed.slot? : Deed → Option Slot
  | .write node => some (some node)
  | .leave _ => some none
  | .refuse _ | .load _ => none

theorem outcome_deed {i : Invocation} {host : Locator} {key : String} {written : Json} {argument : Slot}
    {ms : Members Json} (strict : Bool) (hv : i.directive.verb ≠ .load) :
    e.outcome strict i.directive host key written argument ms =
      (e.deed i (fun condition => Members.get? (armKey condition) ms) argument).slot? := by
  unfold outcome deed
  cases hverb : i.directive.verb with
  | load => exact absurd hverb hv
  | choose =>
    cases argument with
    | none => rfl
    | some node =>
      cases node with
      | bool condition =>
        simp only [Deed.upon]
        cases Members.get? (armKey condition) ms <;> rfl
      | null | num _ | str _ | arr _ | obj _ => rfl
  | lookup =>
    cases argument with
    | none => rfl
    | some node =>
      cases node with
      | str name =>
        simp only [Deed.upon]
        cases e.parameter? name with
        | none => rfl
        | some found =>
          simp only [Option.bind_some]
          split <;> rfl
      | null | bool _ | num _ | arr _ | obj _ => rfl
  | join =>
    cases argument with
    | none => rfl
    | some node => cases node <;> rfl
  | asJson | asBase64 => cases argument <;> rfl
  | asYaml =>
    cases argument with
    | none => rfl
    | some node =>
      simp only [Deed.upon, Option.bind_some]
      cases Json.decode node.encode <;> rfl

/-- The verb of an invocation bound to an object of a sound document: its outcome in place. -/
theorem act_ok {doc written : Json} {v : Directive} (hd : d.Sound) (hr : Locator.resolve host d = some (.obj ms)) :
    (e.act (e.bind doc host v key written)).runOn d = (.ok (), d') ↔
      ∃ slot, e.outcome true v host key written (Locator.resolve (e.bind doc host v key written).input d) ms = some slot ∧
        fits host slot = true ∧ place host slot d = some d' := by
  by_cases hv : v.verb = .load
  · unfold act
    simp only [bind_directive, hv, loadPayload, bind_payload, bind_branch, if_true]
    cases hp : e.imports host written with
    | none =>
      constructor
      · intro h
        cases h
      · intro h
        obtain ⟨slot, ho, -⟩ := h
        obtain ⟨-, _, _, himported, -⟩ := (outcome_load hv).mp ho
        rw [hp] at himported
        cases himported
    | some payload => rw [atomically_ok, load_ok hd hr hv hp]
  · have hhost : Locator.resolve (e.bind doc host v key written).host d = some (.obj ms) := by rwa [bind_host]
    have hout : ∀ argument, e.outcome true v host key written argument ms = _ := fun argument =>
      @outcome_deed e (e.bind doc host v key written) host key written argument ms true hv
    rw [hout, runOn_act, arm?_eq hhost]
    have htold := e.deed_told (e.bind doc host v key written) (fun condition => Members.get? (armKey condition) ms)
      (Locator.resolve (e.bind doc host v key written).input d)
    cases hdeed : e.deed (e.bind doc host v key written) _ _ with
    | refuse cause =>
      constructor
      · intro h
        cases h
      · intro h
        obtain ⟨_, h, -⟩ := h
        cases h
    | load payload =>
      rw [hdeed] at htold
      exact absurd htold.1 hv
    | write node =>
      simp only [Deed.edit, Deed.slot?, bind_host, Option.some.injEq, exists_eq_left']
      exact put_ok hd hr rfl
    | leave arm =>
      rw [leave_ok hd hhost]
      simp only [Deed.slot?, bind_host, Option.some.injEq, exists_eq_left']

end Act

/-! ## The whole invocation -/

/-- The document without the argument sibling, where it has one. -/
def swept (i : Invocation) (d : Json) : Json :=
  (i.argumentSibling?.bind fun sibling => Locator.remove? sibling d).getD d

theorem removeSibling_ok (hd : d.Sound)
    (hs : ∀ s, i.argumentSibling? = some s → s ≠ []) :
    (removeSibling i).runOn d = (.ok (), d') ↔ swept i d = d' := by
  unfold removeSibling swept
  cases ha : i.argumentSibling? with
  | none => simp
  | some s =>
    have hne := hs s ha
    simp only [runOn_bind, runOn_get, Option.bind_some]
    have hsome := Locator.remove?_isSome (d := d) hne
    cases hm : Locator.remove? s d with
    | none =>
      rw [hm] at hsome
      rw [if_neg (by rw [← hsome]; exact Bool.false_ne_true)]
      simp
    | some d1 =>
      have hthere : (Locator.resolve s d).isSome = true := by rw [← hsome, hm]; rfl
      rw [if_pos hthere, delete_ok hd, hm, Option.getD_some, Option.some.injEq]

theorem place_sound {host : Locator} {ms : Members Json} {slot : Slot} (hd : d.Sound)
    (hr : Locator.resolve host d = some (.obj ms)) (hf : fits host slot = true) (h : place host slot d = some d') :
    d'.Sound := by
  cases slot with
  | some node => exact (replace?_sound hd hr h).mpr hf
  | none =>
    simp only [place] at h
    split at h
    · exact remove?_sound hd h
    · rename_i hl
      refine (replace?_sound hd hr h).mpr (fits_null hd hr ?_)
      intro he
      rw [he] at hl
      cases hl
    · cases h

theorem sibling_ne_nil {doc written : Json} {v : Directive} {host s : Locator} {key : String}
    (h : (e.bind doc host v key written).argumentSibling? = some s) : s ≠ [] := by
  rw [bind_argumentSibling?] at h
  split at h
  · obtain ⟨p, k, -, rfl, -⟩ := argumentSibling?_eq_some.mp h
    simp
  · cases h

/-- A verb that fails has done nothing, and the failure names the invocation. -/
theorem apply_error {cause : Error} (h : (e.act i).runOn d = (.error cause, d')) :
    (e.apply i).runOn d = (.error (e.wrap i cause), d) := by
  unfold apply perform
  rw [runOn_adapt, runOn_atomically, runOn_bind, h]
  rfl

/-- Applying carries out the verb and then takes the argument sibling. -/
theorem apply_performed (i : Invocation) : (e.apply i).runOn d = (.ok (), d') ↔
    ∃ d1, (e.act i).runOn d = (.ok (), d1) ∧ (removeSibling i).runOn d1 = (.ok (), d') := by
  rw [apply, perform, runOn_adapt_ok, atomically_ok, runOn_bind_ok]
  constructor
  · intro h
    obtain ⟨_, d1, h⟩ := h
    exact ⟨d1, h⟩
  · intro h
    exact ⟨(), h⟩

/-- Applying a bound invocation: its outcome in place, and its argument sibling gone. -/
theorem apply_ok {doc written : Json} {v : Directive} {host : Locator} {key : String} {ms : Members Json}
    (hd : d.Sound) (hr : Locator.resolve host d = some (.obj ms)) :
    (e.apply (e.bind doc host v key written)).runOn d = (.ok (), d') ↔
      ∃ slot d1, e.outcome true v host key written (Locator.resolve (e.bind doc host v key written).input d) ms = some slot ∧
        fits host slot = true ∧ place host slot d = some d1 ∧ swept (e.bind doc host v key written) d1 = d' := by
  have hact : ∀ d1, (e.act (e.bind doc host v key written)).runOn d = (.ok (), d1) ↔ _ := fun d1 => act_ok hd hr
  rw [apply_performed]
  constructor
  · intro h
    obtain ⟨d1, ha, hs⟩ := h
    obtain ⟨slot, ho, hf, hpl⟩ := (hact d1).mp ha
    exact ⟨slot, d1, ho, hf, hpl, (removeSibling_ok (place_sound hd hr hf hpl) fun _ => sibling_ne_nil).mp hs⟩
  · intro h
    obtain ⟨slot, d1, ho, hf, hpl, hs⟩ := h
    exact ⟨d1, (hact d1).mpr ⟨slot, ho, hf, hpl⟩,
      (removeSibling_ok (place_sound hd hr hf hpl) fun _ => sibling_ne_nil).mpr hs⟩

/-! ## At a member, at an item, at the root -/

section Places

variable {q : Locator} {k key : String} {n : Nat} {ps ms : Members Json} {items : List Json} {node : Json}

theorem place_member (hp : Locator.resolve q d = some (.obj ps)) (hc : Members.get? k ps = some node) (slot : Slot) :
    place (q ++ [.key k]) slot d = Locator.replace? q (.obj (Members.put k slot ps)) d := by
  unfold place
  cases slot with
  | some v =>
    simp only [Locator.replace?, Locator.modify?_append]
    refine Locator.modify?_congr hp ?_
    rw [Locator.modify?_cons, Json.child?, Segment.text, hc]
    rfl
  | none =>
    simp only [List.getLast?_concat, Locator.remove?_snoc]
    refine Locator.modify?_congr hp ?_
    rw [Json.eraseChild?, Segment.text, Members.contains, hc]
    rfl

theorem place_item (hp : Locator.resolve q d = some (.arr items)) (hc : items[n]? = some node) (slot : Slot) :
    place (q ++ [.index n]) slot d = Locator.replace? q (.arr (items.set n (slot.getD .null))) d := by
  have hlt : n < items.length := (List.getElem?_eq_some_iff.mp hc).1
  have hset : ∀ v, Locator.replace? (q ++ [.index n]) v d = Locator.replace? q (.arr (items.set n v)) d := by
    intro v
    rw [Locator.replace?, Locator.modify?_append]
    refine Locator.modify?_congr hp ?_
    rw [Locator.modify?_cons, Json.child?, Segment.index?, Option.bind_some, hc, Option.bind_some, Locator.modify?_nil,
      Option.bind_some, Json.setChild?, Segment.index?, Option.bind_some, if_pos hlt]
  unfold place
  cases slot with
  | some v => exact hset v
  | none =>
    simp only [List.getLast?_concat]
    exact hset .null

theorem removed_member (h : Locator.replace? q (.obj ps) d = some d') (k : String) :
    Locator.replace? q (.obj (Members.erase k ps)) d = some ((Locator.remove? (q ++ [.key k]) d').getD d') := by
  have hr : Locator.resolve q d' = some (.obj ps) := by
    obtain ⟨n, m, -, hm, hr⟩ := Locator.modify?_eq_some h
    cases hm
    exact hr
  cases hk : Members.contains k ps with
  | true =>
    have hchild : Json.eraseChild? (.obj ps) (.key k) = some (.obj (Members.erase k ps)) := if_pos hk
    obtain ⟨d'', hd, -⟩ := Locator.modify?_some (f := (·.eraseChild? (.key k))) hr hchild
    rw [Locator.remove?_snoc, hd, Option.getD_some, ← hd, Locator.modify?_modify? h]
    simp only [Option.bind_some, hchild]
    rfl
  | false =>
    have hchild : Json.eraseChild? (.obj ps) (.key k) = none :=
      if_neg (by rw [Segment.text, hk]; exact Bool.false_ne_true)
    have habsent : k ∉ Members.keys ps := fun hmem => by
      rw [Members.contains_iff.mpr hmem] at hk
      cases hk
    rw [Locator.remove?_snoc, Locator.modify?_none hr hchild, Option.getD_none, Members.erase_of_not_mem habsent, h]

theorem argumentSibling?_member (doc : Json) (q : Locator) (k : String) :
    e.argumentSibling? doc (q ++ [.key k]) =
      if (Locator.resolve (q ++ [.key (e.siblingKey k)]) doc).isSome then some (q ++ [.key (e.siblingKey k)])
      else none := by
  unfold argumentSibling?
  rw [List.getLast?_concat, List.dropLast_concat]
  rfl

theorem argumentSibling?_item (doc : Json) (q : Locator) (n : Nat) : e.argumentSibling? doc (q ++ [.index n]) = none := by
  unfold argumentSibling?
  rw [List.getLast?_concat]
  rfl

/-- What the sibling of a member has become, seen from the document that was scanned. -/
def sibling (e : Engine) (doc : Json) (q : Locator) (k : String) (ps : Members Json) : Option Slot :=
  if (Locator.resolve (q ++ [.key (e.siblingKey k)]) doc).isSome then some (Members.get? (e.siblingKey k) ps) else none

/-- The members that stay when an outcome stands under a key and its argument sibling is taken. -/
def become (e : Engine) (written : Json) (k : String) (slot : Slot) (ps : Members Json) : Members Json :=
  if written = .bool true then Members.erase (e.siblingKey k) (Members.put k slot ps) else Members.put k slot ps

variable {v : Directive} {doc written : Json}

theorem argument_member (hp : Locator.resolve q d = some (.obj ps)) (hc : Members.get? k ps = some (.obj ms)) :
    Locator.resolve (e.bind doc (q ++ [.key k]) v key written).input d =
      argumentOf key written (e.sibling doc q k ps) ms := by
  have hat : ∀ k', Locator.resolve (q ++ [.key k']) d = Members.get? k' ps := by
    intro k'
    rw [Locator.resolve_snoc, hp]
    rfl
  rw [bind_input, bind_argumentSibling?, argumentOf]
  have hown : Locator.resolve (q ++ [.key k] ++ [.key key]) d = Members.get? key ms := by
    rw [Locator.resolve_snoc, hat, hc]
    rfl
  by_cases hw : written = .bool true
  · rw [if_pos hw, if_pos hw, argumentSibling?_member, sibling]
    split
    · exact hat _
    · exact hown
  · rw [if_neg hw, if_neg hw]
    exact hown

theorem argument_item (hp : Locator.resolve q d = some (.arr items)) (hc : items[n]? = some (.obj ms)) :
    Locator.resolve (e.bind doc (q ++ [.index n]) v key written).input d = argumentOf key written none ms := by
  rw [bind_input, bind_argumentSibling?, argumentSibling?_item, ite_self, argumentOf, ite_self, Option.getD_none,
    Option.getD_none, Locator.resolve_snoc, Locator.resolve_snoc, hp]
  change (items[n]?.bind _) = _
  rw [hc]
  rfl

theorem argument_root :
    Locator.resolve (e.bind doc [] v key written).input (.obj ms) = argumentOf key written none ms := by
  have hnone : e.argumentSibling? doc [] = none := rfl
  rw [bind_input, bind_argumentSibling?, hnone, ite_self, argumentOf, ite_self]
  exact Locator.resolve_snoc [] _ _

/-- An invocation at a member of a sound document. -/
theorem apply_member (hd : d.Sound) (hp : Locator.resolve q d = some (.obj ps)) (hc : Members.get? k ps = some (.obj ms))
    (hsuffix : e.siblingKey k ≠ k)
    (habsent : Locator.resolve (q ++ [.key (e.siblingKey k)]) doc = none → Members.get? (e.siblingKey k) ps = none) :
    (e.apply (e.bind doc (q ++ [.key k]) v key written)).runOn d = (.ok (), d') ↔
      ∃ slot, e.outcome true v (q ++ [.key k]) key written
          (Locator.resolve (e.bind doc (q ++ [.key k]) v key written).input d) ms = some slot ∧
        fits (q ++ [.key k]) slot = true ∧ Locator.replace? q (.obj (e.become written k slot ps)) d = some d' := by
  have hr : Locator.resolve (q ++ [.key k]) d = some (.obj ms) := by
    rw [Locator.resolve_snoc, hp]
    exact hc
  have hswept : ∀ slot d1, Locator.replace? q (.obj (Members.put k slot ps)) d = some d1 →
      Locator.replace? q (.obj (e.become written k slot ps)) d =
        some (swept (e.bind doc (q ++ [.key k]) v key written) d1) := by
    intro slot d1 h
    rw [swept, bind_argumentSibling?, become]
    by_cases hw : written = .bool true
    · rw [if_pos hw, if_pos hw, argumentSibling?_member]
      split
      · exact removed_member h _
      · rename_i hn
        have hgone : e.siblingKey k ∉ Members.keys (Members.put k slot ps) := by
          rw [← Members.get?_eq_none_iff, Members.get?_put_of_ne hsuffix.symm]
          exact habsent (by simpa using hn)
        rw [Members.erase_of_not_mem hgone]
        exact h
    · rw [if_neg hw, if_neg hw]
      exact h
  rw [apply_ok hd hr]
  simp only [place_member hp hc]
  constructor
  · intro h
    obtain ⟨slot, d1, ho, hf, hpl, rfl⟩ := h
    exact ⟨slot, ho, hf, hswept slot d1 hpl⟩
  · intro h
    obtain ⟨slot, ho, hf, hpl⟩ := h
    obtain ⟨d1, h1, -⟩ := replace?_isSome hp (.obj (Members.put k slot ps))
    refine ⟨slot, d1, ho, hf, h1, ?_⟩
    rw [hswept slot d1 h1] at hpl
    exact Option.some.inj hpl

theorem apply_item (hd : d.Sound) (hp : Locator.resolve q d = some (.arr items)) (hc : items[n]? = some (.obj ms)) :
    (e.apply (e.bind doc (q ++ [.index n]) v key written)).runOn d = (.ok (), d') ↔
      ∃ slot, e.outcome true v (q ++ [.index n]) key written
          (Locator.resolve (e.bind doc (q ++ [.index n]) v key written).input d) ms = some slot ∧
        fits (q ++ [.index n]) slot = true ∧ Locator.replace? q (.arr (items.set n (slot.getD .null))) d = some d' := by
  have hr : Locator.resolve (q ++ [.index n]) d = some (.obj ms) := by
    rw [Locator.resolve_snoc, hp]
    exact hc
  have hnone : (e.bind doc (q ++ [.index n]) v key written).argumentSibling? = none := by
    rw [bind_argumentSibling?, argumentSibling?_item, ite_self]
  rw [apply_ok hd hr]
  simp only [place_item hp hc, swept, hnone, Option.bind_none, Option.getD_none]
  constructor
  · intro h
    obtain ⟨slot, d1, ho, hf, hpl, rfl⟩ := h
    exact ⟨slot, ho, hf, hpl⟩
  · intro h
    obtain ⟨slot, ho, hf, hpl⟩ := h
    exact ⟨slot, d', ho, hf, hpl, rfl⟩

theorem apply_root (hd : (Json.obj ms).Sound) :
    (e.apply (e.bind doc [] v key written)).runOn (.obj ms) = (.ok (), d') ↔
      ∃ slot, e.outcome true v [] key written (Locator.resolve (e.bind doc [] v key written).input (.obj ms)) ms =
          some slot ∧ fits [] slot = true ∧ slot = some d' := by
  have hnone : (e.bind doc [] v key written).argumentSibling? = none := by
    rw [bind_argumentSibling?]
    exact ite_self _
  rw [apply_ok hd rfl]
  simp only [swept, hnone, Option.bind_none, Option.getD_none]
  constructor
  · intro h
    obtain ⟨slot, d1, ho, hf, hpl, rfl⟩ := h
    refine ⟨slot, ho, hf, ?_⟩
    cases slot with
    | none => cases hf
    | some x => exact hpl
  · intro h
    obtain ⟨slot, ho, hf, rfl⟩ := h
    exact ⟨some d', d', ho, hf, rfl, rfl⟩

end Places

end DocExpand.Engine
