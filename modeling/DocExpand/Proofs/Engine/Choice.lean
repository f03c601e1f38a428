/-
  DocExpand.Proofs.Engine.Choice — a choice from its condition to what it leaves.

  A choice can be made when its condition is a boolean and, at the root, the arm for it is
  there and is an array or object (`Choosable`). Then the arm stands in the host's place as
  it was, or the host is gone: no member any more, or null among items (`Chosen`). Else the
  choice is refused for its condition or for what would be the root (`Unchoosable`), never
  for the depth: an arm in the place of its object stands less deep than before
  (`choice_applied`).
-/

import DocExpand.Proofs.Engine.Census
import DocExpand.Proofs.Engine.Landed
import DocExpand.Proofs.Engine.Store

namespace DocExpand.Engine

open Edit

variable {e : Engine} {doc d d' : Json} {found : List Invocation} {i : Invocation} {v : Directive} {key : String}
  {written input : Json} {ms : Members Json} {slot : Slot} {host : Locator} {condition : Bool} {source : Error}

/-! ## What can be chosen -/

/-- The condition is a boolean, and its arm can be the root if it has to. -/
structure Choosable (i : Invocation) (d : Json) (condition : Bool) : Prop where
  input : Locator.resolve i.input d = some (.bool condition)
  root : i.host = [] → ∃ arm, arm? i d condition = some arm ∧ arm.kind.isContainer = true

/-- Why a choice is refused. -/
inductive Unchoosable (i : Invocation) (d : Json) : Error → Prop
  | type {input : Json} : Locator.resolve i.input d = some input → input.kind ≠ .boolean →
    Unchoosable i d (.type i.input.display Kind.boolean.name input.kind.name)
  | missing {condition : Bool} : Locator.resolve i.input d = some (.bool condition) → i.host = [] →
    arm? i d condition = none → Unchoosable i d (.integrity (.missingRootArm (armKey condition)))
  | scalar {condition : Bool} {arm : Json} : Locator.resolve i.input d = some (.bool condition) → i.host = [] →
    arm? i d condition = some arm → arm.kind.isContainer = false →
    Unchoosable i d (.integrity (.scalarRoot arm.kind))

/-- What a choice leaves: its arm in the host's place, or no host. -/
inductive Chosen (i : Invocation) (condition : Bool) (d d' : Json) : Prop
  | arm {arm : Json} : arm? i d condition = some arm → Locator.walk i.host d' = some arm → Chosen i condition d d'
  | member {q : Locator} {k : String} {rest : Members Json} : arm? i d condition = none → i.host = q ++ [.key k] →
    Locator.walk q d' = some (.obj rest) → k ∉ Members.keys rest → Chosen i condition d d'
  | item {q : Locator} {n : Nat} {items : List Json} : arm? i d condition = none → i.host = q ++ [.index n] →
    Locator.walk q d = some (.arr items) → n < items.length → Locator.walk q d' = some (.arr (items.set n .null)) →
    Chosen i condition d d'

theorem choosable_or_unchoosable (hr : Locator.resolve i.input d = some input) :
    (∃ condition, Choosable i d condition) ∨ ∃ source, Unchoosable i d source := by
  by_cases hk : input.kind = .boolean
  · cases input with
    | null | num _ | str _ | arr _ | obj _ => cases hk
    | bool condition =>
      by_cases hroot : i.host = []
      · cases harm : arm? i d condition with
        | none => exact .inr ⟨_, .missing hr hroot harm⟩
        | some arm =>
          cases hc : arm.kind.isContainer with
          | false => exact .inr ⟨_, .scalar hr hroot harm hc⟩
          | true => exact .inl ⟨condition, hr, fun _ => ⟨arm, harm, hc⟩⟩
      · exact .inl ⟨condition, hr, fun h => absurd h hroot⟩
  · exact .inr ⟨_, .type hr hk⟩

theorem Unchoosable.unwrapped (h : Unchoosable i d source) : source.wrapped = false := by cases h <;> rfl

theorem Unchoosable.not_deep (h : Unchoosable i d source) (text : ByteArray) : source ≠ .integrity (.undecodable text) := by
  cases h <;> exact fun h => nomatch h

/-! ## The edit -/

theorem Unchoosable.refused (hv : i.directive.verb = .choose) (h : Unchoosable i d source) :
    (e.act i).runOn d = (.error source, d) := by
  rw [runOn_act]
  cases h with
  | @type input hr hk =>
    rw [hr, deed_mistyped hv hk]
    rfl
  | missing hr hroot harm =>
    rw [hr, deed_choose hv, harm]
    simp only [Deed.edit, hroot]
    rfl
  | scalar hr hroot harm hc =>
    rw [hr, deed_choose hv, harm]
    simp only [Deed.edit, hroot]
    exact put_refused.mpr ⟨rfl, .root rfl rfl hc⟩

/-- An arm stands less deep in the place of its object. -/
theorem fits_arm {k : String} {arm : Json} (hd : d.Sound) (hr : Locator.resolve host d = some (.obj ms))
    (harm : Members.get? k ms = some arm) (hroot : host = [] → arm.kind.isContainer = true) :
    fits host (some arm) = true := by
  have hwhere : Locator.resolve (host ++ [.key k]) d = some arm := by
    rw [Locator.resolve_snoc, hr]
    exact harm
  have hdeep := Locator.resolve_nesting hwhere
  have hshallow := hd.shallow
  rw [List.length_append, List.length_singleton] at hdeep
  exact fits_some.mpr ⟨by omega, hroot⟩

namespace Ready

variable (h : Ready e doc i v key written ms d)

include h

theorem arm_eq : arm? i d condition = Members.get? (armKey condition) ms := by
  rw [arm?_eq h.resolve]

/-- What becomes of the host fits in its place exactly if the choice can be made. -/
theorem fits_iff (hd : d.Sound) (hr : Locator.resolve i.input d = some (.bool condition)) :
    fits i.host (Members.get? (armKey condition) ms) = true ↔ Choosable i d condition := by
  constructor
  · intro hf
    refine ⟨hr, fun hroot => ?_⟩
    rw [h.arm_eq]
    rw [hroot] at hf
    cases harm : Members.get? (armKey condition) ms with
    | none =>
      rw [harm] at hf
      cases hf
    | some arm =>
      rw [harm] at hf
      exact ⟨arm, rfl, (fits_some.mp hf).2 rfl⟩
  · intro hc
    have hroot := hc.root
    rw [h.arm_eq] at hroot
    cases harm : Members.get? (armKey condition) ms with
    | none =>
      have hne : i.host ≠ [] := fun hh => by
        obtain ⟨arm, harm', -⟩ := hroot hh
        rw [harm] at harm'
        cases harm'
      simpa [fits] using hne
    | some arm =>
      refine fits_arm hd h.resolve harm fun hh => ?_
      obtain ⟨arm', harm', hcontainer⟩ := hroot hh
      rw [harm] at harm'
      cases harm'
      exact hcontainer

theorem choosable_iff (hd : d.Sound) (hv : v.verb = .choose) :
    (∃ d', (e.apply i).runOn d = (.ok (), d')) ↔ ∃ condition, Choosable i d condition := by
  constructor
  · rintro ⟨d', ha⟩
    obtain ⟨slot, d1, hout, hfits, -, -⟩ := (h.apply_iff hd).mp ha
    obtain ⟨condition, hr, rfl⟩ := (outcome_choose hv).mp hout
    exact ⟨condition, (h.fits_iff hd hr).mp hfits⟩
  · rintro ⟨condition, hc⟩
    have hout : e.outcome true v i.host key written (Locator.resolve i.input d) ms =
        some (Members.get? (armKey condition) ms) := (outcome_choose hv).mpr ⟨condition, hc.input, rfl⟩
    have hfits := (h.fits_iff hd hc.input).mpr hc
    obtain ⟨d1, hplace⟩ := place_isSome h.resolve hfits
    exact ⟨swept i d1, (h.apply_iff hd).mpr ⟨_, d1, hout, hfits, hplace, rfl⟩⟩

/-- Where a choice without its arm was a member. -/
theorem gone_member {q : Locator} {k : String} (hleft : Left i none d d') (hhost : i.host = q ++ [.key k]) :
    ∃ rest, Locator.walk q d' = some (.obj rest) ∧ k ∉ Members.keys rest := by
  have hw := h.there
  rw [hhost] at hw
  obtain ⟨ps, hp⟩ := Locator.walk_parent hw
  have hout : ¬ i.host <+: q := by
    rw [hhost]
    exact fun hpre => absurd hpre.length_le (by simp)
  have hs : ∀ s, i.argumentSibling? = some s → ¬ s <+: q := by
    intro s hs
    obtain ⟨q', k', hhost', rfl, -⟩ := h.sibling_eq hs
    rw [hhost] at hhost'
    obtain ⟨rfl, -⟩ := List.append_inj' hhost' rfl
    exact fun hpre => absurd hpre.length_le (by simp)
  obtain ⟨parent, hp', hkept⟩ := (hleft.frame q hout hs).there _ hp
  obtain ⟨rest, rfl⟩ := hkept.obj
  have hhere := hleft.here []
  rw [List.append_nil, hhost, seat, List.getLast?_concat, Locator.walk_snoc, hp'] at hhere
  exact ⟨rest, hp', Members.get?_eq_none_iff.mp hhere⟩

/-- Where a choice without its arm was an item. -/
theorem gone_item {q : Locator} {n : Nat} (hd : d.Sound) (hhost : i.host = q ++ [.index n])
    (hout : e.outcome true v i.host key written (Locator.resolve i.input d) ms = some none)
    (ha : (e.apply i).runOn d = (.ok (), d')) :
    ∃ items, Locator.walk q d = some (.arr items) ∧ n < items.length ∧
      Locator.walk q d' = some (.arr (items.set n .null)) := by
  have hw := h.there
  rw [hhost, Locator.walk_snoc] at hw
  obtain ⟨parent, hp, hc⟩ := Option.bind_eq_some_iff.mp hw
  cases parent with
  | null | bool _ | num _ | str _ | obj _ => cases hc
  | arr items =>
    have happly : (e.apply (e.bind doc (q ++ [.index n]) v key written)).runOn d = (.ok (), d') ↔ _ :=
      apply_item hd (Locator.resolve_of_walk hp) hc
    rw [← hhost, ← h.bound] at happly
    obtain ⟨slot, hout', -, hreplace⟩ := happly.mp ha
    rw [hout] at hout'
    cases hout'
    obtain ⟨m, hm, hat, -, -⟩ := Locator.modify?_walk hp hreplace
    cases hm
    have hq := hat []
    rw [List.append_nil] at hq
    exact ⟨items, hp, (List.getElem?_eq_some_iff.mp hc).1, hq⟩

theorem chosen (hsuffix : e.config.argsSuffix ≠ "") (hd : d.Sound) (ho : d.Ordered) (hv : v.verb = .choose)
    (ha : (e.apply i).runOn d = (.ok (), d')) :
    ∃ condition, Locator.resolve i.input d = some (.bool condition) ∧ Chosen i condition d d' := by
  obtain ⟨slot, hout, hfits, hland⟩ := h.landed hd ho ha
  obtain ⟨condition, hr, hslot⟩ := (outcome_choose hv).mp hout
  have harm := h.arm_eq.trans hslot.symm
  refine ⟨condition, hr, ?_⟩
  cases slot with
  | some arm => exact .arm harm ((hland arm rfl).here hsuffix)
  | none =>
    obtain ⟨slot, hout', hleft⟩ := h.applied hsuffix hd ho ha
    cases hout.symm.trans hout'
    rcases List.eq_nil_or_concat' i.host with hhost | ⟨q, last, hhost⟩
    · rw [hhost] at hfits
      cases hfits
    · cases last with
      | key k =>
        obtain ⟨rest, hq, hk⟩ := h.gone_member hleft hhost
        exact .member harm hhost hq hk
      | index n =>
        obtain ⟨items, hq, hn, hq'⟩ := h.gone_item hd hhost hout ha
        exact .item harm hhost hq hn hq'

theorem unchoosable (hv : v.verb = .choose) (hrefused : Unchoosable i d source) :
    (e.apply i).runOn d = (.error (e.wrap i source), d) := by
  rw [← h.directive] at hv
  exact apply_error (hrefused.refused hv)

end Ready

/-- A choice that a scan found is made if its condition is a boolean and, at the root, its arm can be the root; it leaves
    its arm or nothing. Else it is refused for the one or the other, and never for the depth; then nothing has changed. -/
theorem choice_applied (hsuffix : e.config.argsSuffix ≠ "") (hd : doc.Sound) (ho : doc.Ordered)
    (hscan : e.scan doc = .ok found) (hi : i ∈ found) (hv : i.directive.verb = .choose) :
    ((∃ d', (e.apply i).runOn doc = (.ok (), d')) ↔ ∃ condition, Choosable i doc condition) ∧
      (∀ d', (e.apply i).runOn doc = (.ok (), d') →
        ∃ condition, Locator.resolve i.input doc = some (.bool condition) ∧ Chosen i condition doc d') ∧
      ∀ cause d', (e.apply i).runOn doc = (.error cause, d') ↔ d' = doc ∧
        ∃ source, Unchoosable i doc source ∧ cause = e.wrap i source ∧ cause.rootCause = source ∧
          ∀ text, source ≠ .integrity (.undecodable text) := by
  have hscanned : e.Scanned doc found := ⟨ho, hsuffix, hscan⟩
  obtain ⟨target, v, key, written, ms, -, -, h⟩ := hscanned.ready_found hd hi
  rw [h.directive] at hv
  have hworks := h.choosable_iff hd hv
  refine ⟨hworks, fun d' ha => h.chosen hsuffix hd ho hv ha, fun cause d' => ⟨fun ha => ?_, ?_⟩⟩
  · -- the scan has found the input there, so the choice can be made or there is a reason why not
    obtain ⟨members, _, _, hbinds⟩ := (census_of_scan ho hscan).binds i hi
    obtain ⟨input, hr⟩ := Option.isSome_iff_exists.mp hbinds.stands
    rcases choosable_or_unchoosable hr with hchoosable | ⟨source, hrefused⟩
    · obtain ⟨d1, hok⟩ := hworks.mpr hchoosable
      rw [hok] at ha
      cases ha
    · rw [h.unchoosable hv hrefused] at ha
      cases ha
      exact ⟨rfl, source, hrefused, rfl, Error.rootCause_of_wrapped hrefused.unwrapped, hrefused.not_deep⟩
  · rintro ⟨rfl, source, hrefused, rfl, -⟩
    exact h.unchoosable hv hrefused

/-- A choice among items, whose other arm it has. -/
def optional : Json := .arr [.obj [("kubegen.Null.If", .bool false), ("then", .null)], .str "x"]

/-- A choice at the root, whose arm is a string. -/
def barred : Json := .obj [("kubegen.Null.If", .bool true), ("then", .str "x")]

theorem choice_applied_optional :
    (∃ choice d', plain.scan optional = .ok [choice] ∧ (plain.apply choice).runOn optional = (.ok (), d') ∧
      Chosen choice false optional d') ∧
    ∃ choice cause, plain.scan barred = .ok [choice] ∧ (plain.apply choice).runOn barred = (.error cause, barred) ∧
      cause.rootCause = .integrity (.scalarRoot .string) := by
  have hsuffix : plain.config.argsSuffix ≠ "" := by decide +kernel
  constructor
  · have hd : optional.Sound := by decide
    have ho : optional.Ordered := by decide
    have hscan : ∃ choice, plain.scan optional = .ok [choice] ∧ choice.directive.verb = .choose ∧
        Locator.resolve choice.input optional = some (.bool false) ∧
        (plain.apply choice).runOn optional = (.ok (), .arr [.null, .str "x"]) := ⟨_, rfl, rfl, rfl, rfl⟩
    obtain ⟨choice, hscan, hv, hinput, hrun⟩ := hscan
    obtain ⟨-, hmade, -⟩ := choice_applied hsuffix hd ho hscan (List.mem_singleton_self choice) hv
    obtain ⟨condition, hr, hchosen⟩ := hmade _ hrun
    cases hinput.symm.trans hr
    exact ⟨choice, _, hscan, hrun, hchosen⟩
  · have hd : barred.Sound := by decide
    have ho : barred.Ordered := by decide
    have hscan : ∃ choice, plain.scan barred = .ok [choice] ∧ choice.directive.verb = .choose ∧
        Locator.resolve choice.input barred = some (.bool true) ∧ choice.host = [] ∧
        arm? choice barred true = some (.str "x") := ⟨_, rfl, rfl, rfl, rfl, rfl⟩
    obtain ⟨choice, hscan, hv, hinput, hroot, harm⟩ := hscan
    obtain ⟨-, -, hfails⟩ := choice_applied hsuffix hd ho hscan (List.mem_singleton_self choice) hv
    have hrefused : Unchoosable choice barred (.integrity (.scalarRoot .string)) := .scalar hinput hroot harm rfl
    have hrun := (hfails _ _).mpr ⟨rfl, _, hrefused, rfl, rfl, nofun⟩
    exact ⟨choice, _, hscan, hrun, rfl⟩

end DocExpand.Engine
