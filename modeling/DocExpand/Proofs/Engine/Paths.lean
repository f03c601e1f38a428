/-
  DocExpand.Proofs.Engine.Paths — which places a pass loses.

  When the turn of an invocation comes, its object is there. Its key and its argument are
  there too, unless a choice stood at that very place and was carried out without its arm
  (`Vanished`); that is the only way in which a pass fails for want of a place
  (`turn_paths`).
-/

import DocExpand.Proofs.Engine.Turns

namespace DocExpand.Engine

open Edit

variable {e : Engine} {doc d d' now : Json} {found before after : List Invocation} {i a : Invocation} {p : Locator}

/-! ## Choices without their arm -/

/-- At its turn the invocation is a choice, and the object has not the arm that its condition chooses. -/
def Armless (i : Invocation) (d : Json) : Prop :=
  i.directive.verb = .choose ∧ ∃ condition, Locator.resolve i.input d = some (.bool condition) ∧
    Locator.resolve (i.host ++ [.key (armKey condition)]) d = none

/-- Among the invocations done, a choice at the place was carried out without its arm. -/
def Vanished (e : Engine) (doc : Json) (before : List Invocation) (p : Locator) : Prop :=
  ∃ earlier a later d, before = earlier ++ a :: later ∧ a.host = p ∧
    (e.execute earlier).runOn doc = (.ok (), d) ∧ Armless a d

theorem not_vanished_nil : ¬ e.Vanished doc [] p := by
  intro h
  obtain ⟨earlier, a, later, d, he, -⟩ := h
  cases earlier <;> cases he

theorem vanished_snoc (hr : (e.execute before).runOn doc = (.ok (), d)) :
    e.Vanished doc (before ++ [a]) p ↔ e.Vanished doc before p ∨ a.host = p ∧ Armless a d := by
  constructor
  · intro h
    obtain ⟨earlier, b, later, d1, he, hb, hd1, harm⟩ := h
    rcases List.eq_nil_or_concat' later with rfl | ⟨later, x, rfl⟩
    · obtain ⟨rfl, hab⟩ := List.append_inj' he rfl
      cases hab
      rw [hr] at hd1
      cases hd1
      exact .inr ⟨hb, harm⟩
    · rw [← List.cons_append, ← List.append_assoc] at he
      obtain ⟨rfl, -⟩ := List.append_inj' he rfl
      exact .inl ⟨earlier, b, later, d1, rfl, hb, hd1, harm⟩
  · intro h
    rcases h with ⟨earlier, b, later, d1, rfl, hb, hd1, harm⟩ | ⟨ha, harm⟩
    · exact ⟨earlier, b, later ++ [a], d1, by simp, hb, hd1, harm⟩
    · exact ⟨before, a, [], d, rfl, ha, hr, harm⟩

theorem outcome_gone {v : Directive} {host : Locator} {key : String} {written : Json} {argument : Slot}
    {ms : Members Json} : e.outcome true v host key written argument ms = some none ↔
      v.verb = .choose ∧ ∃ condition, argument = some (.bool condition) ∧ Members.get? (armKey condition) ms = none := by
  constructor
  · intro h
    by_cases hv : v.verb = .choose ∨ v.verb = .lookup ∨ v.verb = .load
    · rcases hv with hv | hv | hv
      · obtain ⟨condition, harg, hslot⟩ := (outcome_choose hv).mp h
        exact ⟨hv, condition, harg, hslot.symm⟩
      · obtain ⟨_, _, -, -, -, hslot⟩ := (outcome_lookup hv).mp h
        cases hslot
      · obtain ⟨-, _, _, -, -, -, hslot⟩ := (outcome_load hv).mp h
        cases hslot
    · obtain ⟨text, hslot⟩ := outcome_text h hv
      cases hslot
  · rintro ⟨hv, condition, harg, hslot⟩
    exact (outcome_choose hv).mpr ⟨condition, harg, hslot.symm⟩

/-- Nothing becomes of a ready invocation exactly when it is a choice without its arm. -/
theorem Ready.armless {v : Directive} {key : String} {written : Json} {ms : Members Json} {slot : Slot}
    (h : Ready e doc i v key written ms now)
    (ho : e.outcome true v i.host key written (Locator.resolve i.input now) ms = some slot) :
    slot = none ↔ Armless i now := by
  have harm : ∀ arm, Locator.resolve (i.host ++ [.key arm]) now = Members.get? arm ms := by
    intro arm
    rw [Locator.resolve_snoc, h.resolve]
    rfl
  unfold Armless
  rw [h.directive]
  simp only [harm]
  rw [← outcome_gone, ho, Option.some.injEq]

/-! ## A member of a place that is clear -/

section Member

variable {q : Locator} {k : String} {ps : Members Json}

/-- A member of the scanned document that no invocation takes for its argument is lost only by a choice at it. -/
theorem Pass.member_lost (h : e.Pass doc found) (hd : doc.Sound)
    (hs : Invocation.schedule found = some (before ++ after)) (hr : (e.execute before).runOn doc = (.ok (), now))
    (hq : Clear before q) (hthere : ∃ n, Locator.walk (q ++ [.key k]) doc = some n)
    (hsib : ∀ a ∈ before, a.argumentSibling? ≠ some (q ++ [.key k])) :
    Locator.walk (q ++ [.key k]) now = none ↔ e.Vanished doc before (q ++ [.key k]) := by
  induction before using List.reverseRecOn generalizing after now with
  | nil =>
    cases hr
    obtain ⟨n, hn⟩ := hthere
    rw [hn]
    exact ⟨fun h => (nomatch h), fun h => absurd h not_vanished_nil⟩
  | append_singleton before a ih =>
    rw [List.append_assoc, List.singleton_append] at hs
    obtain ⟨d1, h1, ha⟩ := execute_snoc.mp hr
    have hlast : a ∈ before ++ [a] := by simp
    have hmem : ∀ b ∈ before ++ a :: after, b ∈ found := fun b hb => (Invocation.mem_schedule hs).mp hb
    have hbefore := ih hs h1 hq.of_append fun b hb => hsib b (List.mem_append_left _ hb)
    have hduring := h.during hd hs h1
    obtain ⟨target, v, key, written, ms, -, -, hready⟩ := h.ready (hmem a (by simp)) (h.clear hs) hduring
    obtain ⟨slot, ho, hleft⟩ := hready.applied h.suffix hduring.sound hduring.ordered ha
    rw [vanished_snoc h1, ← hbefore]
    by_cases hhost : a.host = q ++ [.key k]
    · have hat := hleft.here []
      have hseat : seat (q ++ [.key k]) slot = slot := by rw [seat, List.getLast?_concat]
      have hnow := hready.there
      rw [List.append_nil, hhost, hseat] at hat
      rw [hhost] at hnow
      have hslot : Locator.walk (q ++ [.key k]) now = slot := by
        rw [hat]
        cases slot <;> rfl
      rw [hslot, hready.armless ho, hnow]
      simp [hhost]
    · -- the invocation stands elsewhere and takes something else
      have hkept := hleft.frame (q ++ [.key k]) (Locator.not_prefix_snoc (hq.above a hlast) hhost)
        fun s hs' => Locator.not_prefix_snoc (hq.taken a hlast s hs') fun heq => hsib a hlast (heq ▸ hs')
      rw [← Option.not_isSome_iff_eq_none, ← Option.not_isSome_iff_eq_none, hkept.isSome_eq]
      simp [hhost]

end Member

/-! ## Failing for want of a place -/

/-- The edit fails because the document has nothing at `p`. -/
def Lacks (x : Edit Unit) (d : Json) (p : Locator) : Prop :=
  ∃ cause, (x.runOn d).1 = .error cause ∧ cause.rootCause = .branchNotFound p

section Lacks

variable {host : Locator} {n node : Json} {value : NewValue}

theorem settled_not_lacks {cause : Error} (h : (settled d (.ok d')).1 = .error cause) :
    cause.rootCause ≠ .branchNotFound p := by
  unfold settled at h
  cases hv : verdict d' with
  | ok u =>
    simp only [hv] at h
    cases h
  | error x =>
    simp only [hv] at h
    cases h
    obtain ⟨fault, rfl⟩ := verdict_error hv
    exact fun h => nomatch h

theorem put_not_lacks (hr : Locator.resolve host d = some n) (hv : value.toJson = .ok node) : ¬ Lacks (put host value) d p := by
  intro h
  obtain ⟨cause, hc, hroot⟩ := h
  obtain ⟨d1, hw, -⟩ := replace?_isSome hr node
  rw [runOn_put, written_there hr hv hw] at hc
  exact settled_not_lacks hc hroot

theorem delete_not_lacks (hne : host ≠ []) (hr : Locator.resolve host d = some n) : ¬ Lacks (delete host) d p := by
  intro h
  obtain ⟨cause, hc, hroot⟩ := h
  have hsome := Locator.remove?_isSome hne d
  rw [hr] at hsome
  obtain ⟨d1, hd1⟩ := Option.isSome_iff_exists.mp hsome
  have hremoved : removed host d = .ok d1 := by
    rw [removed, if_neg hne, hd1]
    rfl
  rw [runOn_delete, hremoved] at hc
  exact settled_not_lacks hc hroot

/-- Two edits in turn lack what the first lacks, or then the second. -/
theorem Lacks.bind {x : Edit Unit} {f : Unit → Edit Unit} (h : Lacks (x >>= f) d p) :
    Lacks x d p ∨ ∃ d1, x.runOn d = (.ok (), d1) ∧ Lacks (f ()) d1 p := by
  obtain ⟨cause, hc, hroot⟩ := h
  rw [runOn_bind] at hc
  rcases hx : x.runOn d with ⟨y | u, d1⟩
  · rw [hx] at hc
    exact .inl ⟨cause, by rw [hx]; exact hc, hroot⟩
  · rw [hx] at hc
    exact .inr ⟨d1, rfl, cause, hc, hroot⟩

theorem Lacks.atomically {x : Edit Unit} (h : Lacks (Edit.atomically x) d p) : Lacks x d p := by
  obtain ⟨cause, hc, hroot⟩ := h
  rw [runOn_atomically] at hc
  refine ⟨cause, ?_, hroot⟩
  rcases hx : x.runOn d with ⟨y | u, d1⟩
  · rw [hx] at hc
    exact hc
  · rw [hx] at hc
    cases hc

theorem combine_not_lacks {produces : Kind} {others : Members Json} {imported : Json} {cause : Error}
    (h : e.combine produces others imported = .error cause) : cause.rootCause ≠ .branchNotFound p := by
  have hmerge : ∃ fault, cause = .merge fault := by
    unfold combine at h
    split at h
    · cases h
    · cases h
      exact ⟨_, rfl⟩
    · split at h
      · cases h
        exact ⟨_, rfl⟩
      · split at h
        · cases h
          exact ⟨_, rfl⟩
        · cases h
    · cases h
      exact ⟨_, rfl⟩
  obtain ⟨fault, rfl⟩ := hmerge
  exact fun h => nomatch h

/-- What is left of an object when one of its members has been removed. -/
theorem delete_left {key : String} {ms : Members Json} (hr : Locator.resolve host d = some (.obj ms))
    (h : (delete (host ++ [.key key])).runOn d = (.ok (), d')) :
    Locator.resolve host d' = some (.obj (Members.erase key ms)) := by
  rw [runOn_delete, settled_ok, removed_ok, Locator.remove?_snoc] at h
  obtain ⟨m, m', hm, hm', hres⟩ := Locator.modify?_eq_some h.1
  rw [hr] at hm
  cases hm
  change (if _ then _ else _) = _ at hm'
  split at hm'
  · cases hm'
    exact hres
  · cases hm'

theorem load_lacks {key : String} {ms : Members Json} {produces : Kind} {payload : ByteArray}
    (hr : Locator.resolve host d = some (.obj ms)) (h : Lacks (e.load (host ++ [.key key]) produces payload) d p) :
    p = host ++ [.key key] ∧ Locator.resolve (host ++ [.key key]) d = none := by
  obtain ⟨cause, hc, hroot⟩ := h
  have hat : Locator.resolve (host ++ [.key key]) d = Members.get? key ms := by
    rw [Locator.resolve_snoc, hr]
    rfl
  rw [runOn_load _ _ hr] at hc
  split at hc
  · cases hc
    cases hroot
  split at hc
  · cases hc
    cases hroot
  split at hc
  · rename_i x hx
    cases hc
    exact absurd hroot (combine_not_lacks hx)
  split at hc
  · rename_i y d1 hdelete
    cases hc
    cases hk : Members.get? key ms with
    | some n =>
      refine absurd ⟨cause, ?_, hroot⟩ (delete_not_lacks (by simp) (hat.trans hk))
      rw [hdelete]
    | none =>
      have habsent : Members.contains key ms = false := by rw [Members.contains, hk, Option.isSome_none]
      rw [delete_absent hr habsent] at hdelete
      cases hdelete
      cases hroot
      exact ⟨rfl, hat.trans hk⟩
  · rename_i d1 hdelete
    exact absurd ⟨cause, hc, hroot⟩ (put_not_lacks (delete_left hr hdelete) rfl)

theorem leave_not_lacks {arm : String} (hr : Locator.resolve i.host d = some n) :
    ¬ Lacks ((Deed.leave arm).edit e i) d p := by
  rw [Deed.edit]
  rcases List.eq_nil_or_concat' i.host with hhost | ⟨q, s, hhost⟩
  · rw [hhost]
    rintro ⟨cause, hc, hroot⟩
    cases hc
    cases hroot
  · have hne : i.host ≠ [] := by simp [hhost]
    split
    · exact delete_not_lacks hne hr
    · exact put_not_lacks hr rfl
    · rintro ⟨cause, hc, hroot⟩
      cases hc
      cases hroot

theorem act_lacks {key : String} {ms : Members Json} (hr : Locator.resolve i.host d = some (.obj ms))
    (hbranch : i.branch = i.host ++ [.key key]) (h : Lacks (e.act i) d p) :
    p = (if i.directive.verb = .load then i.branch else i.input) ∧ Locator.resolve p d = none := by
  obtain ⟨cause, hc, hroot⟩ := h
  have htold := e.deed_told i (arm? i d) (Locator.resolve i.input d)
  rw [runOn_act] at hc
  cases hdeed : e.deed i (arm? i d) (Locator.resolve i.input d) with
  | refuse source =>
    rw [hdeed] at hc htold
    cases hc
    cases htold with
    | input hnone hv =>
      cases hroot
      rw [if_neg hv]
      exact ⟨rfl, hnone⟩
    | type | parameter | missing | encode => cases hroot
  | write node =>
    rw [hdeed] at hc
    exact absurd ⟨cause, hc, hroot⟩ (put_not_lacks hr rfl)
  | leave arm =>
    rw [hdeed] at hc
    exact absurd ⟨cause, hc, hroot⟩ (leave_not_lacks hr)
  | load payload =>
    rw [hdeed] at hc htold
    rw [if_pos htold.1]
    rw [Deed.edit, hbranch] at hc
    rw [hbranch]
    have hload : Lacks (e.load (i.host ++ [.key key]) i.directive.produces payload) d p := Lacks.atomically ⟨cause, hc, hroot⟩
    obtain ⟨rfl, hp⟩ := load_lacks hr hload
    exact ⟨rfl, hp⟩

theorem removeSibling_not_lacks (hs : ∀ s, i.argumentSibling? = some s → s ≠ []) : ¬ Lacks (removeSibling i) d p := by
  intro h
  obtain ⟨cause, hc, hroot⟩ := h
  unfold removeSibling at hc
  cases ha : i.argumentSibling? with
  | none =>
    rw [ha] at hc
    cases hc
  | some s =>
    rw [ha] at hc
    simp only [runOn_bind, runOn_get] at hc
    cases hr : Locator.resolve s d with
    | none =>
      rw [hr] at hc
      cases hc
    | some n =>
      rw [hr] at hc
      exact delete_not_lacks (hs s ha) hr ⟨cause, hc, hroot⟩

/-- An applied invocation lacks its input, or an import its own key. -/
theorem apply_lacks {key : String} {ms : Members Json} (hr : Locator.resolve i.host d = some (.obj ms))
    (hbranch : i.branch = i.host ++ [.key key]) (hs : ∀ s, i.argumentSibling? = some s → s ≠ [])
    (h : Lacks (e.apply i) d p) :
    p = (if i.directive.verb = .load then i.branch else i.input) ∧ Locator.resolve p d = none := by
  have hperform : Lacks (e.perform i) d p := by
    obtain ⟨cause, hc, hroot⟩ := h
    unfold apply at hc
    rw [runOn_adapt] at hc
    cases hx : ((e.perform i).runOn d).1 with
    | ok u =>
      rw [hx] at hc
      cases hc
    | error y =>
      rw [hx] at hc
      cases hc
      exact ⟨y, hx, hroot⟩
  rcases hperform.atomically.bind with hact | ⟨d1, -, hremove⟩
  · exact act_lacks hr hbranch hact
  · exact absurd hremove (removeSibling_not_lacks hs)

/-- Without its input no invocation but an import can be applied. -/
theorem lacks_input (hv : i.directive.verb ≠ .load) (hi : Locator.resolve i.input d = none) :
    Lacks (e.apply i) d i.input := by
  have hact : (e.act i).runOn d = (.error (.branchNotFound i.input), d) := by
    rw [runOn_act, hi, deed_none hv]
    rfl
  exact ⟨_, congrArg Prod.fst (apply_error hact), rfl⟩

end Lacks

/-! ## The turn of an invocation -/

namespace Pass

variable (h : e.Pass doc found)

include h

/-- The key of an invocation is lost by the turn of the invocation only where a choice stood. -/
theorem branch_lost (hd : doc.Sound) (hs : Invocation.schedule found = some (before ++ i :: after))
    (hr : (e.execute before).runOn doc = (.ok (), now)) :
    Locator.resolve i.branch now = none ↔ e.Vanished doc before i.branch := by
  have hmem : ∀ b ∈ before ++ i :: after, b ∈ found := fun b hb => (Invocation.mem_schedule hs).mp hb
  have hi := hmem i (by simp)
  obtain ⟨-, v, key, written, ms, -, -, hready⟩ := h.ready hi (h.clear hs) (h.during hd hs hr)
  have hbranch := hready.branch
  obtain ⟨argument, hthere, -⟩ := h.toScanned.fetched hi
  rw [hbranch] at hthere
  rw [hbranch, Locator.resolve_member hready.there]
  refine h.member_lost hd hs hr (h.clear hs) ⟨argument, hthere⟩ fun b hb => ?_
  rw [← hbranch]
  exact h.apart b (hmem b (List.mem_append_left _ hb)) i hi

/-- So is its argument. -/
theorem input_lost (hd : doc.Sound) (hs : Invocation.schedule found = some (before ++ i :: after))
    (hr : (e.execute before).runOn doc = (.ok (), now)) :
    Locator.resolve i.input now = none ↔ e.Vanished doc before i.input := by
  have hmem : ∀ b ∈ before ++ i :: after, b ∈ found := fun b hb => (Invocation.mem_schedule hs).mp hb
  have hi := hmem i (by simp)
  have hclear := h.clear hs
  have hduring := h.during hd hs hr
  obtain ⟨target, v, key, written, ms, hv, -, hready⟩ := h.ready hi hclear hduring
  cases hsib : i.argumentSibling? with
  | none =>
    have hinput : i.input = i.branch := by
      unfold Invocation.argumentSibling? at hsib
      split at hsib
      · assumption
      · cases hsib
    rw [hinput]
    exact h.branch_lost hd hs hr
  | some s =>
    have hinput : i.input = s := by
      unfold Invocation.argumentSibling? at hsib
      split at hsib
      · cases hsib
      · exact Option.some.inj hsib
    have hs' := hsib
    rw [hready.bound, bind_argumentSibling?] at hs'
    split at hs'
    · obtain ⟨q, k, hhost, rfl, hthere⟩ := argumentSibling?_eq_some.mp hs'
      have hpre : q <+: i.host := ⟨_, hhost.symm⟩
      have hw := (hv.walk h.ordered).1
      rw [hhost] at hw
      obtain ⟨ps, hps⟩ := Locator.walk_parent hw
      obtain ⟨n, hn, hk⟩ := (hduring.retains q (hclear.of_prefix hpre)).there _ hps
      obtain ⟨ps', rfl⟩ := hk.obj
      rw [hinput, Locator.resolve_member hn]
      refine h.member_lost hd hs hr (hclear.of_prefix hpre) ?_ fun b hb hb' => ?_
      · rw [Locator.resolve_member hps] at hthere
        exact Option.isSome_iff_exists.mp hthere
      · obtain ⟨q', k', hbhost, heq⟩ := h.toScanned.sibling_eq (hmem b (List.mem_append_left _ hb)) hb'
        obtain ⟨rfl, hkey⟩ := List.append_inj' heq rfl
        have hkk : k = k' := siblingKey_inj (e := e) (by simpa [siblingKey] using hkey)
        subst hkk
        exact (h.course hs).ne_of_before rfl hb (h.toScanned.eq_of_host (hmem b (List.mem_append_left _ hb)) hi (hbhost.trans hhost.symm))
    · cases hs'

end Pass

/-- When the turn of an invocation of a pass comes, its key and its argument are there unless a choice without its arm
    stood at that place; it fails for want of a place only then. -/
theorem turn_paths (hvalid : e.config.fault? = none) (hd : doc.Sound) (ho : doc.Ordered)
    (hscan : e.scan doc = .ok found) (hapart : Apart found) (hs : Invocation.schedule found = some (before ++ i :: after))
    (hr : (e.execute before).runOn doc = (.ok (), now)) :
    (Locator.resolve i.branch now = none ↔ e.Vanished doc before i.branch) ∧
      (Locator.resolve i.input now = none ↔ e.Vanished doc before i.input) ∧
      (∀ p, Lacks (e.apply i) now p →
        p = (if i.directive.verb = .load then i.branch else i.input) ∧ e.Vanished doc before p) ∧
      (i.directive.verb ≠ .load → e.Vanished doc before i.input → Lacks (e.apply i) now i.input) ∧
      (i.directive.verb = .load → e.Vanished doc before i.branch → ∀ d', (e.apply i).runOn now ≠ (.ok (), d')) := by
  have h : e.Pass doc found := ⟨ho, suffix_of_fault? hvalid, hscan, hapart⟩
  have hbranch := h.branch_lost hd hs hr
  have hinput := h.input_lost hd hs hr
  have hduring := h.during hd hs hr
  have hi : i ∈ found := (Invocation.mem_schedule hs).mp (by simp)
  obtain ⟨target, v, key, written, ms, -, -, hready⟩ := h.ready hi (h.clear hs) hduring
  have hb : i.branch = i.host ++ [.key key] := by
    rw [hready.bound, bind_branch, bind_host]
  have hsib : ∀ s, i.argumentSibling? = some s → s ≠ [] := by
    intro s hs'
    rw [hready.bound] at hs'
    exact sibling_ne_nil hs'
  refine ⟨hbranch, hinput, fun p hp => ?_, fun hv hgone => lacks_input hv (hinput.mpr hgone), fun hv hgone d' hok => ?_⟩
  · obtain ⟨rfl, hnone⟩ := apply_lacks (Locator.resolve_of_walk hready.there) hb hsib hp
    refine ⟨rfl, ?_⟩
    by_cases hv : i.directive.verb = .load
    · rw [if_pos hv] at hnone ⊢
      exact hbranch.mp hnone
    · rw [if_neg hv] at hnone ⊢
      exact hinput.mp hnone
  · obtain ⟨slot, hout, -⟩ := hready.applied h.suffix hduring.sound hduring.ordered hok
    have hdir : i.directive = v := by rw [hready.bound, bind_directive]
    have hkept := ((outcome_load (hdir ▸ hv)).mp hout).1
    have hgone' := hbranch.mpr hgone
    rw [hb, Locator.resolve_snoc, Locator.resolve_of_walk hready.there] at hgone'
    have hnone : Members.get? key ms = none := hgone'
    rw [Members.contains, hnone] at hkept
    cases hkept

/-- A choice without an arm in the argument of a string directive. -/
def armless : Json := .obj [("a", .obj [("kubegen.String.AsJSON", .obj [("kubegen.Null.If", .bool false)])])]

def armlessChoice : Invocation :=
  let branch : Locator := [.key "a", .key "kubegen.String.AsJSON", .key "kubegen.Null.If"]
  { directive := ⟨.null, .a, .choose⟩, branch, input := branch }

def armlessText : Invocation :=
  let branch : Locator := [.key "a", .key "kubegen.String.AsJSON"]
  { directive := ⟨.string, .d, .asJson⟩, branch, input := branch }

/-- The choice removes the argument, and then the string directive lacks it. -/
theorem turn_paths_armless :
    plain.scan armless = .ok [armlessText, armlessChoice] ∧
      Invocation.schedule [armlessText, armlessChoice] = some [armlessChoice, armlessText] ∧
      (plain.execute [armlessChoice]).runOn armless = (.ok (), .obj [("a", .obj [])]) ∧
      Lacks (plain.apply armlessText) (.obj [("a", .obj [])]) armlessText.input := by
  have hscan : plain.scan armless = .ok [armlessText, armlessChoice] := by rfl
  have hs : Invocation.schedule [armlessText, armlessChoice] = some ([armlessChoice] ++ armlessText :: []) := by
    decide +kernel
  have hr : (plain.execute [armlessChoice]).runOn armless = (.ok (), .obj [("a", .obj [])]) := by rfl
  have hgone : plain.Vanished armless [armlessChoice] armlessText.input :=
    ⟨[], armlessChoice, [], armless, rfl, rfl, rfl, rfl, false, rfl, rfl⟩
  have hlost := turn_paths (by decide +kernel) (by decide) (by decide) hscan (plain_apart hscan) hs hr
  exact ⟨hscan, hs, hr, hlost.2.2.2.1 (by decide) hgone⟩

end DocExpand.Engine
