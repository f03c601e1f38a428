/-
  DocExpand.Proofs.Engine.Imported — what an import makes of the object that asks for it.

  An import is admitted when its payload decodes to something that the object can be combined
  with (`Combined`) and the document with the result still nests within the limit; else it is
  refused for the first reason that applies (`Refused`). Admitted, it puts the result in the
  object's place, be that the root or not; refused, it leaves the document as it was
  (`import_applied`).
-/

import DocExpand.Proofs.Engine.Landed
import DocExpand.Proofs.Engine.Store

namespace DocExpand.Engine

open Edit

variable {e : Engine} {doc d d' : Json} {i : Invocation} {v : Directive} {host : Locator} {key : String}
  {written : Json} {ms others : Members Json} {payload : ByteArray} {produces : Kind} {cause source : Error}
  {imported combined : Json}

/-- What an imported object or array makes of an object with these members beside its invocation. -/
inductive Combined (policy : MergePolicy) (others : Members Json) : Kind → Json → Json → Prop
  | object (incoming : Members Json) :
    Combined policy others .object (.obj incoming) (.obj (Json.mergeMembers policy others incoming))
  | array (items : List Json) : others = [] → Combined policy others .array (.arr items) (.arr items)

/-- The import of a payload into the object at `host` leaves `combined` in its place. -/
structure Admitted (e : Engine) (host : Locator) (produces : Kind) (others : Members Json) (payload : ByteArray)
    (d combined : Json) : Prop where
  inner : produces = .array → host ≠ []
  decoded : ∃ imported, Json.decode payload = some imported ∧
    Combined e.config.mergePolicy others produces imported combined
  shallow : ∃ d1, Locator.replace? host combined d = some d1 ∧ d1.nesting ≤ Json.nestingLimit

/-- Why an import is refused. Each reason supposes that those before it do not apply. -/
inductive Refused (e : Engine) (host : Locator) (produces : Kind) (others : Members Json) (payload : ByteArray)
    (d : Json) : Error → Prop
  | root : produces = .array → host = [] → Refused e host produces others payload d (.merge .arrayAtRoot)
  | undecoded : (produces = .array → host ≠ []) → Json.decode payload = none →
    Refused e host produces others payload d (.importDecode payload)
  | notObject {imported : Json} : produces = .object → Json.decode payload = some imported → imported.kind ≠ .object →
    Refused e host produces others payload d (.merge (.importNotObject imported.kind))
  | residue {imported : Json} : produces = .array → host ≠ [] → Json.decode payload = some imported → others ≠ [] →
    Refused e host produces others payload d (.merge (.unexpectedKeys (Members.keys others)))
  | notArray {imported : Json} : produces = .array → host ≠ [] → Json.decode payload = some imported → others = [] →
    imported.kind ≠ .array → Refused e host produces others payload d (.merge (.importNotArray imported.kind))
  | deep {imported combined d1 : Json} : (produces = .array → host ≠ []) → Json.decode payload = some imported →
    Combined e.config.mergePolicy others produces imported combined → Locator.replace? host combined d = some d1 →
    Json.nestingLimit < d1.nesting → Refused e host produces others payload d (.integrity (.undecodable d1.encode))

/-! ## The combination -/

theorem combined_iff : e.combine produces others imported = .ok combined ↔
    Combined e.config.mergePolicy others produces imported combined := by
  rw [combine_ok]
  constructor
  · rintro (⟨rfl, incoming, rfl, rfl⟩ | ⟨rfl, ho, items, rfl, rfl⟩)
    · exact .object incoming
    · exact .array items ho
  · intro h
    cases h with
    | object incoming => exact .inl ⟨rfl, incoming, rfl, rfl⟩
    | array items ho => exact .inr ⟨rfl, ho, items, rfl, rfl⟩

theorem Combined.container {policy : MergePolicy} (h : Combined policy others produces imported combined) :
    combined.kind.isContainer = true := by
  cases h <;> rfl

theorem replaced_container {d1 : Json} (hd : d.Sound) (hc : combined.kind.isContainer = true)
    (h : Locator.replace? host combined d = some d1) : d1.kind.isContainer = true := by
  by_cases hroot : host = []
  · subst hroot
    cases h
    exact hc
  · rw [Locator.replace?_kind hroot h]
    exact hd.container

/-- The combination fits at the host exactly if the document with it is within the limit. -/
theorem fits_combined {n : Json} (hd : d.Sound) (hr : Locator.resolve host d = some n)
    (hc : combined.kind.isContainer = true) : fits host (some combined) = true ↔
      ∃ d1, Locator.replace? host combined d = some d1 ∧ d1.nesting ≤ Json.nestingLimit := by
  obtain ⟨d1, hd1, -⟩ := replace?_isSome hr combined
  rw [← replace?_sound hd hr hd1]
  constructor
  · exact fun hs => ⟨d1, hd1, hs.shallow⟩
  · rintro ⟨d2, hd2, hn⟩
    rw [hd1] at hd2
    cases hd2
    exact ⟨replaced_container hd hc hd1, hn⟩

/-- An import is admitted or refused. -/
theorem admitted_or_refused {n : Json} (hr : Locator.resolve host d = some n)
    (hp : produces = .object ∨ produces = .array) (others : Members Json) (payload : ByteArray) :
    (∃ combined, Admitted e host produces others payload d combined) ∨
      ∃ source, Refused e host produces others payload d source := by
  by_cases hroot : produces = .array ∧ host = []
  · exact .inr ⟨_, .root hroot.1 hroot.2⟩
  have hinner : produces = .array → host ≠ [] := fun ha hh => hroot ⟨ha, hh⟩
  cases hi : Json.decode payload with
  | none => exact .inr ⟨_, .undecoded hinner hi⟩
  | some imported =>
    -- what is left once the two can be combined
    have hlast : ∀ combined, Combined e.config.mergePolicy others produces imported combined →
        (∃ combined, Admitted e host produces others payload d combined) ∨
          ∃ source, Refused e host produces others payload d source := by
      intro combined hc
      obtain ⟨d1, hd1, -⟩ := replace?_isSome hr combined
      by_cases hn : d1.nesting ≤ Json.nestingLimit
      · exact .inl ⟨combined, hinner, ⟨imported, hi, hc⟩, d1, hd1, hn⟩
      · exact .inr ⟨_, .deep hinner hi hc hd1 (Nat.lt_of_not_le hn)⟩
    rcases hp with rfl | rfl
    · by_cases hk : imported.kind = .object
      · cases imported with
        | obj incoming => exact hlast _ (.object incoming)
        | null | bool _ | num _ | str _ | arr _ => cases hk
      · exact .inr ⟨_, .notObject rfl hi hk⟩
    · by_cases ho : others = []
      · by_cases hk : imported.kind = .array
        · cases imported with
          | arr items => exact hlast _ (.array items ho)
          | null | bool _ | num _ | str _ | obj _ => cases hk
        · exact .inr ⟨_, .notArray rfl (hinner rfl) hi ho hk⟩
      · exact .inr ⟨_, .residue rfl (hinner rfl) hi ho⟩

/-! ## The edit -/

theorem combine_not_object (h : imported.kind ≠ .object) :
    e.combine .object others imported = .error (.merge (.importNotObject imported.kind)) := by
  cases imported with
  | obj incoming => exact absurd rfl h
  | null | bool _ | num _ | str _ | arr _ => rfl

theorem combine_residue (h : others ≠ []) :
    e.combine .array others imported = .error (.merge (.unexpectedKeys (Members.keys others))) := by
  rw [combine, if_pos h]

theorem combine_not_array (h : imported.kind ≠ .array) :
    e.combine .array [] imported = .error (.merge (.importNotArray imported.kind)) := by
  rw [combine, if_neg (fun hne => hne rfl), if_pos h]

/-- An import that cannot be combined has not edited anything. -/
theorem load_uncombined (hr : Locator.resolve host d = some (.obj ms)) (hinner : produces = .array → host ≠ [])
    (hi : Json.decode payload = some imported) (hc : e.combine produces (Members.erase key ms) imported = .error source) :
    (e.load (host ++ [.key key]) produces payload).runOn d = (.error source, d) := by
  rw [runOn_load _ _ hr, if_neg fun hroot => hinner hroot.1 hroot.2, hi]
  simp only [hc]

theorem load_refused (hd : d.Sound) (hr : Locator.resolve host d = some (.obj ms))
    (hk : Members.contains key ms = true) (h : Refused e host produces (Members.erase key ms) payload d source) :
    ∃ d1, (e.load (host ++ [.key key]) produces payload).runOn d = (.error source, d1) := by
  cases h with
  | root ha hh =>
    rw [runOn_load _ _ hr, if_pos ⟨ha, hh⟩]
    exact ⟨d, rfl⟩
  | undecoded hinner hi =>
    rw [runOn_load _ _ hr, if_neg fun hroot => hinner hroot.1 hroot.2, hi]
    exact ⟨d, rfl⟩
  | notObject hp hi hkind =>
    subst hp
    exact ⟨d, load_uncombined hr (fun h => nomatch h) hi (combine_not_object hkind)⟩
  | residue hp hh hi ho =>
    subst hp
    exact ⟨d, load_uncombined hr (fun _ => hh) hi (combine_residue ho)⟩
  | notArray hp hh hi ho hkind =>
    subst hp
    exact ⟨d, load_uncombined hr (fun _ => hh) hi (ho ▸ combine_not_array hkind)⟩
  | @deep _ combined _ hinner hi hc hd1 hn =>
    -- the invocation goes first, and it is the combination that does not fit
    obtain ⟨d0, hdelete, hs0, hr0, hsame⟩ := delete_key hd hr hk
    have hwrite := (Locator.write?_eq_replace? hr0 _).trans ((hsame _).trans hd1)
    have hput : (put host (.tree combined)).runOn d0 = _ :=
      put_refused.mpr ⟨rfl, .depth rfl hwrite (replaced_container hd hc.container hd1) hn⟩
    rw [runOn_load _ _ hr, if_neg fun hroot => hinner hroot.1 hroot.2, hi]
    simp only [combined_iff.mpr hc, hdelete, hput]
    exact ⟨d0, rfl⟩

theorem Refused.unwrapped (h : Refused e host produces others payload d source) : source.wrapped = false := by
  cases h <;> rfl

/-- What is admitted is the outcome of the import, and fits. -/
theorem admitted_iff (argument : Slot) (hd : d.Sound) (hr : Locator.resolve host d = some (.obj ms))
    (hk : Members.contains key ms = true) (hload : v.verb = .load) (hp : e.imports host written = some payload) :
    Admitted e host v.produces (Members.erase key ms) payload d combined ↔
      e.outcome true v host key written argument ms = some (some combined) ∧ fits host (some combined) = true := by
  rw [outcome_load hload, hp, Option.bind_some]
  constructor
  · rintro ⟨hinner, ⟨imported, hi, hc⟩, hshallow⟩
    have hroot : ¬ (v.produces = .array ∧ host = []) := fun hroot => hinner hroot.1 hroot.2
    exact ⟨⟨hk, imported, combined, hi, combined_iff.mpr hc, hroot, rfl⟩, (fits_combined hd hr hc.container).mpr hshallow⟩
  · rintro ⟨⟨-, imported, combined, hi, hc, hroot, hslot⟩, hfits⟩
    cases hslot
    have hc := combined_iff.mp hc
    exact ⟨fun ha hh => hroot ⟨ha, hh⟩, ⟨imported, hi, hc⟩, (fits_combined hd hr hc.container).mp hfits⟩

/-- An import with a payload is admitted or refused. Admitted, it leaves the combination in the place of its object;
    refused, it leaves the document as it was and names the first reason that applies. -/
theorem import_applied (hd : d.Sound) (ho : d.Ordered) (h : Ready e doc i v key written ms d)
    (hk : Members.contains key ms = true) (hv : Directive.parse? key e.config.domain = some v) (hload : v.verb = .load)
    (hp : i.payload = some payload) :
    (v.produces = .object ∨ v.produces = .array) ∧
    (((e.apply i).runOn d).1 = .ok () ↔
      ∃ combined, Admitted e i.host v.produces (Members.erase key ms) payload d combined) ∧
    (∀ d', (e.apply i).runOn d = (.ok (), d') →
      ∃ combined, Admitted e i.host v.produces (Members.erase key ms) payload d combined ∧ Landed e i combined d d') ∧
    ∀ cause d', (e.apply i).runOn d = (.error cause, d') ↔ d' = d ∧
      ∃ source, Refused e i.host v.produces (Members.erase key ms) payload d source ∧ cause = e.wrap i source ∧
        cause.rootCause = source := by
  have himport : e.imports i.host written = some payload := by
    rw [h.bound, bind_payload, if_pos hload] at hp
    exact hp
  have hproduces := Directive.load_produces hv hload
  have hadmitted : ∀ combined, Admitted e i.host v.produces (Members.erase key ms) payload d combined ↔ _ :=
    fun combined => admitted_iff (Locator.resolve i.input d) hd h.resolve hk hload himport
  have hlanded : ∀ d', (e.apply i).runOn d = (.ok (), d') →
      ∃ combined, Admitted e i.host v.produces (Members.erase key ms) payload d combined ∧ Landed e i combined d d' := by
    intro d' ha
    obtain ⟨slot, hout, hfits, hland⟩ := h.landed hd ho ha
    obtain ⟨-, -, combined, -, -, -, rfl⟩ := (outcome_load hload).mp hout
    exact ⟨combined, (hadmitted combined).mpr ⟨hout, hfits⟩, hland combined rfl⟩
  have hworks : ∀ combined, Admitted e i.host v.produces (Members.erase key ms) payload d combined →
      ∃ d', (e.apply i).runOn d = (.ok (), d') := by
    intro combined hadm
    obtain ⟨hout, hfits⟩ := (hadmitted combined).mp hadm
    obtain ⟨d1, hd1, -⟩ := hadm.shallow
    exact ⟨swept i d1, (h.apply_iff hd).mpr ⟨some combined, d1, hout, hfits, hd1, rfl⟩⟩
  have hfails : ∀ source, Refused e i.host v.produces (Members.erase key ms) payload d source →
      (e.apply i).runOn d = (.error (e.wrap i source), d) := by
    intro source hrefused
    obtain ⟨d1, hrun⟩ := load_refused hd h.resolve hk hrefused
    have hact : (e.act i).runOn d = (.error source, d) := by
      unfold act
      simp only [h.directive, hload, loadPayload, hp, h.branch, runOn_atomically, hrun]
    exact apply_error hact
  refine ⟨hproduces, ⟨fun hok => ?_, ?_⟩, hlanded, fun cause d' => ⟨fun ha => ?_, ?_⟩⟩
  · obtain ⟨combined, hadm, -⟩ := hlanded _ (Prod.ext hok rfl)
    exact ⟨combined, hadm⟩
  · rintro ⟨combined, hadm⟩
    obtain ⟨d', ha⟩ := hworks combined hadm
    rw [ha]
  · rcases admitted_or_refused h.resolve hproduces (Members.erase key ms) payload with ⟨combined, hadm⟩ | ⟨source, hrefused⟩
    · obtain ⟨d1, hok⟩ := hworks combined hadm
      rw [hok] at ha
      cases ha
    · rw [hfails source hrefused] at ha
      cases ha
      exact ⟨rfl, source, hrefused, rfl, Error.rootCause_of_wrapped hrefused.unwrapped⟩
  · rintro ⟨rfl, source, hrefused, rfl, -⟩
    exact hfails source hrefused

/-- The payload of a member is held under its pointer. -/
def importer : Engine := ⟨{}, Imports.ofEntries [("/a", "\x7b\"x\":true,\"y\":[]\x7d".toUTF8)]⟩

/-- An import into an object with a member that the payload has too, and an argument sibling. -/
def importing : Json := .obj [
  ("a", .obj [("kubegen.Object.LoadJSON", .bool true), ("x", .null)]),
  ("a_args", .str "z"), ("b", .null)]

def importingLoad : Invocation :=
  importer.bind importing [.key "a"] ⟨.object, .c, .load⟩ "kubegen.Object.LoadJSON" (.bool true)

theorem import_applied_merged :
    importer.scan importing = .ok [importingLoad] ∧
      ∃ combined d', (importer.apply importingLoad).runOn importing = (.ok (), d') ∧
        combined = .obj [("x", .null), ("y", .arr [])] ∧ Landed importer importingLoad combined importing d' := by
  have hd : importing.Sound := by decide
  have ho : importing.Ordered := by decide
  have hw : Locator.walk [.key "a"] importing = some (.obj [("kubegen.Object.LoadJSON", .bool true), ("x", .null)]) := by
    decide
  have hready := ready_bind (e := importer) hw ⟨.object, .c, .load⟩ "kubegen.Object.LoadJSON" (.bool true)
  have hrun : (importer.apply importingLoad).runOn importing =
      (.ok (), .obj [("a", .obj [("x", .null), ("y", .arr [])]), ("b", .null)]) := by rfl
  refine ⟨by rfl, ?_⟩
  obtain ⟨-, -, hlanded, -⟩ := import_applied hd ho hready (by decide) (by decide +kernel) rfl (by rfl)
  obtain ⟨combined, -, hland⟩ := hlanded _ hrun
  have hhere : some (Json.obj [("x", .null), ("y", .arr [])]) = some combined := hland.here (by decide +kernel)
  exact ⟨combined, _, hrun, (Option.some.inj hhere).symm, hland⟩

end DocExpand.Engine
