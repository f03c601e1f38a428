/-
  DocExpand.Proofs.Engine.Edits — what an edit does to the document, operation by operation.

  A document is sound when its root is an array or object and it nests within the limit;
  that is what `validate` lets pass (`verdict_ok`), since exactly such a document's text
  reads back. `put` and `delete` leave a sound document or the one they were given. An edit
  that keeps documents sound is `Safe`; sequencing, handling an error and taking back keep
  edits safe, so a composite edit is safe when its parts are.
-/

import DocExpand.Engine.Expand
import DocExpand.Proofs.Json.Text
import DocExpand.Proofs.Locator.Store

namespace DocExpand

/-- A document that an engine can hold. -/
structure Json.Sound (d : Json) : Prop where
  container : d.kind.isContainer = true
  shallow : d.nesting ≤ Json.nestingLimit

instance (d : Json) : Decidable d.Sound :=
  decidable_of_iff (d.kind.isContainer = true ∧ d.nesting ≤ Json.nestingLimit)
    ⟨fun h => ⟨h.1, h.2⟩, fun h => ⟨h.container, h.shallow⟩⟩

namespace Edit

variable {α β : Type} {d d' : Json}

/-! ## Running an edit -/

@[simp] theorem runOn_pure (a : α) (d : Json) : (pure a : Edit α).runOn d = (.ok a, d) := rfl

@[simp] theorem runOn_throw (e : Error) (d : Json) : (throw e : Edit α).runOn d = (.error e, d) := rfl

@[simp] theorem runOn_get (d : Json) : (get : Edit Json).runOn d = (.ok d, d) := rfl

@[simp] theorem runOn_set (d' d : Json) : (set d' : Edit PUnit).runOn d = (.ok ⟨⟩, d') := rfl

theorem runOn_bind (x : Edit α) (f : α → Edit β) (d : Json) :
    (x >>= f).runOn d =
      match x.runOn d with
      | (.ok a, d') => (f a).runOn d'
      | (.error e, d') => (.error e, d') := by
  have hrun : (x >>= f).runOn d = (ExceptT.bindCont f (x.runOn d).1).run (x.runOn d).2 := rfl
  rw [hrun]
  rcases x.runOn d with ⟨_ | a, d'⟩ <;> rfl

theorem runOn_bind_ok {x : Edit α} {f : α → Edit β} {b : β} : (x >>= f).runOn d = (.ok b, d') ↔
    ∃ a d1, x.runOn d = (.ok a, d1) ∧ (f a).runOn d1 = (.ok b, d') := by
  rw [runOn_bind]
  rcases x.runOn d with ⟨y | a, d1⟩
  · refine ⟨fun h => (nomatch h), fun h => ?_⟩
    obtain ⟨_, _, hx, -⟩ := h
    cases hx
  · refine ⟨fun h => ⟨a, d1, rfl, h⟩, fun h => ?_⟩
    obtain ⟨_, _, hx, h⟩ := h
    cases hx
    exact h

theorem runOn_tryCatch (x : Edit α) (h : Error → Edit α) (d : Json) :
    (tryCatch x h).runOn d =
      match x.runOn d with
      | (.ok a, d') => (.ok a, d')
      | (.error e, d') => (h e).runOn d' := by
  rcases hx : x.runOn d with ⟨r, d'⟩
  have hd : StateT.run x d = (r, d') := hx
  simp only [runOn, tryCatch, tryCatchThe, MonadExceptOf.tryCatch, ExceptT.tryCatch, ExceptT.run_mk, StateT.run_bind,
    hd]
  cases r <;> rfl

theorem runOn_lift (r : Except Error α) (d : Json) : (liftM r : Edit α).runOn d = (r, d) := by
  cases r <;> rfl

theorem runOn_atomically (x : Edit α) (d : Json) :
    (atomically x).runOn d =
      match x.runOn d with
      | (.ok a, d') => (.ok a, d')
      | (.error e, _) => (.error e, d) := rfl

theorem atomically_ok {x : Edit α} {a : α} : (atomically x).runOn d = (.ok a, d') ↔ x.runOn d = (.ok a, d') := by
  rw [runOn_atomically]
  rcases x.runOn d with ⟨y | b, d1⟩
  · exact ⟨fun h => (nomatch h), fun h => (nomatch h)⟩
  · exact Iff.rfl

theorem runOn_adapt (f : Error → Error) (x : Edit α) (d : Json) :
    runOn (ExceptT.adapt f x) d = ((x.runOn d).1.mapError f, (x.runOn d).2) := rfl

theorem runOn_adapt_ok {f : Error → Error} {x : Edit α} {a : α} :
    runOn (ExceptT.adapt f x) d = (.ok a, d') ↔ x.runOn d = (.ok a, d') := by
  rw [runOn_adapt]
  rcases x.runOn d with ⟨y | b, d1⟩
  · exact ⟨fun h => (nomatch h), fun h => (nomatch h)⟩
  · exact Iff.rfl

/-! ## Changes that are checked -/

/-- What `validate` says of a document. -/
def verdict (d : Json) : Except Error Unit :=
  if d.kind.isContainer then
    if d.nesting ≤ Json.nestingLimit then .ok () else .error (.integrity (.undecodable d.encode))
  else .error (.integrity (.scalarRoot d.kind))

theorem verdict_ok : verdict d = .ok () ↔ d.Sound := by
  unfold verdict
  constructor
  · intro h
    split at h
    · rename_i hc
      split at h
      · rename_i hn
        exact ⟨hc, hn⟩
      · cases h
    · cases h
  · intro h
    rw [if_pos h.container, if_pos h.shallow]

theorem verdict_eq_error {cause : Error} : verdict d = .error cause ↔
    d.kind.isContainer = false ∧ cause = .integrity (.scalarRoot d.kind) ∨
      d.kind.isContainer = true ∧ Json.nestingLimit < d.nesting ∧ cause = .integrity (.undecodable d.encode) := by
  unfold verdict
  by_cases hc : d.kind.isContainer = true
  · by_cases hn : d.nesting ≤ Json.nestingLimit
    · simp [hc, hn]
    · simp [hc, hn, Nat.lt_of_not_le hn, eq_comm]
  · simp [hc, eq_comm]

theorem verdict_error {cause : Error} (h : verdict d = .error cause) : ∃ fault, cause = .integrity fault := by
  rcases verdict_eq_error.mp h with ⟨-, rfl⟩ | ⟨-, -, rfl⟩
  · exact ⟨_, rfl⟩
  · exact ⟨_, rfl⟩

theorem runOn_validate (d : Json) : validate.runOn d = (verdict d, d) := by
  unfold validate verdict
  rw [runOn_bind, runOn_get]
  by_cases hc : d.kind.isContainer = true
  · by_cases hn : d.nesting ≤ Json.nestingLimit
    · simp [hc, hn, Json.decode_encode_isSome]
    · simp [hc, hn, Json.decode_encode_isSome]
  · simp [hc]

theorem runOn_write (p : Locator) (node d : Json) :
    (write p node).runOn d =
      match Locator.write? p node d with
      | some d' => (.ok (), d')
      | none => (.error (.branchNotFound p), d) := by
  unfold write
  simp only [runOn_bind, runOn_get]
  cases Locator.write? p node d <;> rfl

theorem runOn_remove (p : Locator) (d : Json) :
    (remove p).runOn d =
      if p = [] then (.error (.integrity .rootDeletion), d)
      else match Locator.remove? p d with
        | some d' => (.ok (), d')
        | none => (.error (.branchNotFound p), d) := by
  unfold remove
  cases p with
  | nil => rfl
  | cons s p =>
    rw [if_neg (List.cons_ne_nil s p), List.isEmpty_cons, if_neg Bool.false_ne_true]
    simp only [runOn_bind, runOn_get]
    cases Locator.remove? (s :: p) d <;> rfl

/-- The outcome of a change that is kept only if the document stays sound. -/
def settled (d : Json) (changed : Except Error Json) : Except Error Unit × Json :=
  match changed with
  | .error e => (.error e, d)
  | .ok d' =>
    match verdict d' with
    | .ok () => (.ok (), d')
    | .error e => (.error e, d)

theorem settled_ok {changed : Except Error Json} :
    settled d changed = (.ok (), d') ↔ changed = .ok d' ∧ d'.Sound := by
  unfold settled
  constructor
  · intro h
    split at h
    · cases h
    · split at h
      · rename_i hv
        cases h
        exact ⟨rfl, verdict_ok.mp hv⟩
      · cases h
  · rintro ⟨rfl, hs⟩
    simp only [verdict_ok.mpr hs]

/-- A change that is not kept could not be made, or its document did not pass. -/
theorem settled_eq_error {changed : Except Error Json} {cause : Error} : settled d changed = (.error cause, d') ↔
    d' = d ∧ (changed = .error cause ∨ ∃ d1, changed = .ok d1 ∧ verdict d1 = .error cause) := by
  unfold settled
  cases changed with
  | error e => simp [eq_comm, and_comm]
  | ok d1 =>
    cases hv : verdict d1 with
    | ok u => simp [hv]
    | error e => simp [hv, eq_comm, and_comm]

theorem settled_sound (hd : d.Sound) (changed : Except Error Json) : (settled d changed).2.Sound := by
  unfold settled
  split
  · exact hd
  · split
    · rename_i hv
      exact verdict_ok.mp hv
    · exact hd

/-- The document with a value written, before any check. -/
def written (p : Locator) (value : NewValue) (d : Json) : Except Error Json :=
  value.toJson.bind fun node => (Locator.write? p node d).elim (.error (.branchNotFound p)) .ok

/-- The document with a node removed, before any check. -/
def removed (p : Locator) (d : Json) : Except Error Json :=
  if p = [] then .error (.integrity .rootDeletion)
  else (Locator.remove? p d).elim (.error (.branchNotFound p)) .ok

theorem runOn_put (p : Locator) (value : NewValue) (d : Json) :
    (put p value).runOn d = settled d (written p value d) := by
  unfold put written
  rw [runOn_bind]
  cases value.toJson with
  | error e => rfl
  | ok node =>
    change (atomically _).runOn d = settled d ((Locator.write? p node d).elim _ _)
    rw [runOn_atomically, runOn_bind, runOn_write]
    cases Locator.write? p node d with
    | none => rfl
    | some d' =>
      simp only [Option.elim, settled, runOn_validate]
      cases verdict d' <;> rfl

theorem runOn_delete (p : Locator) (d : Json) : (delete p).runOn d = settled d (removed p d) := by
  unfold delete removed
  rw [runOn_atomically, runOn_bind, runOn_remove]
  by_cases hp : p = []
  · rw [if_pos hp, if_pos hp]
    rfl
  · rw [if_neg hp, if_neg hp]
    cases Locator.remove? p d with
    | none => rfl
    | some d' =>
      simp only [Option.elim, settled, runOn_validate]
      cases verdict d' <;> rfl

theorem written_ok {p : Locator} {value : NewValue} : written p value d = .ok d' ↔
    ∃ node, value.toJson = .ok node ∧ Locator.write? p node d = some d' := by
  unfold written
  cases value.toJson with
  | error e => simp [Except.bind]
  | ok node => cases hw : Locator.write? p node d <;> simp [Except.bind, hw]

theorem removed_ok {p : Locator} : removed p d = .ok d' ↔ Locator.remove? p d = some d' := by
  unfold removed
  split
  · rename_i hp
    subst hp
    exact ⟨fun h => (nomatch h), fun h => (nomatch h)⟩
  · cases Locator.remove? p d <;> simp

theorem runOn_put_ok {p : Locator} {value : NewValue} : (put p value).runOn d = (.ok (), d') ↔
    (∃ node, value.toJson = .ok node ∧ Locator.write? p node d = some d') ∧ d'.Sound := by
  rw [runOn_put, settled_ok, written_ok]

theorem put_written {p : Locator} {value : NewValue} {node : Json} (hv : value.toJson = .ok node)
    (h : (put p value).runOn d = (.ok (), d')) : Locator.write? p node d = some d' := by
  obtain ⟨⟨node', hv', hw⟩, -⟩ := runOn_put_ok.mp h
  cases hv.symm.trans hv'
  exact hw

theorem delete_removed {p : Locator} (h : (delete p).runOn d = (.ok (), d')) : Locator.remove? p d = some d' := by
  rw [runOn_delete, settled_ok] at h
  exact removed_ok.mp h.1

theorem remove?_sound {p : Locator} (hd : d.Sound) (h : Locator.remove? p d = some d') : d'.Sound :=
  ⟨by rw [Locator.remove?_kind h]; exact hd.container, Nat.le_trans (Locator.remove?_nesting h) hd.shallow⟩

/-- What is removed from a sound document stays removed. -/
theorem delete_ok {p : Locator} (hd : d.Sound) : (delete p).runOn d = (.ok (), d') ↔ Locator.remove? p d = some d' := by
  rw [runOn_delete, settled_ok, removed_ok]
  exact ⟨fun h => h.1, fun h => ⟨h, remove?_sound hd h⟩⟩

theorem runOn_valueAt (p : Locator) (d : Json) :
    (valueAt p).runOn d =
      match Locator.resolve p d with
      | some node => (.ok ⟨node, p.display⟩, d)
      | none => (.error (.branchNotFound p), d) := by
  unfold valueAt
  simp only [runOn_bind, runOn_get]
  cases Locator.resolve p d <;> rfl

theorem runOn_whenKind (p : Locator) (expected : Kind) (x : Edit Unit) (d : Json) :
    (whenKind p expected x).runOn d =
      match Locator.resolve p d with
      | none => (.error (.branchNotFound p), d)
      | some node =>
        if node.kind = expected then x.runOn d else (.error (.type p.display expected.name node.kind.name), d) := by
  unfold whenKind
  simp only [runOn_bind, runOn_valueAt]
  cases Locator.resolve p d with
  | none => rfl
  | some node =>
    have hexpect : Value.expect ⟨node, p.display⟩ expected =
        if node.kind = expected then .ok () else .error (.type p.display expected.name node.kind.name) := rfl
    simp only [hexpect, runOn_lift]
    by_cases hk : node.kind = expected
    · rw [if_pos hk, if_pos hk]
    · rw [if_neg hk, if_neg hk]

/-! ## Safe edits -/

/-- The edit leaves a sound document sound, whether it succeeds or fails. -/
def Safe (x : Edit α) : Prop := ∀ d : Json, d.Sound → (x.runOn d).2.Sound

theorem safe_pure (a : α) : Safe (pure a) := fun _ hd => hd

theorem safe_throw (e : Error) : Safe (throw e : Edit α) := fun _ hd => hd

theorem safe_get : Safe get := fun _ hd => hd

theorem safe_lift (r : Except Error α) : Safe (liftM r) := by
  intro d hd
  rw [runOn_lift]
  exact hd

theorem Safe.bind {x : Edit α} {f : α → Edit β} (hx : Safe x) (hf : ∀ a, Safe (f a)) : Safe (x >>= f) := by
  intro d hd
  have hs := hx d hd
  rw [runOn_bind]
  rcases hr : x.runOn d with ⟨_ | a, d'⟩
  · rw [hr] at hs
    exact hs
  · rw [hr] at hs
    exact hf a d' hs

theorem Safe.tryCatch {x : Edit α} {h : Error → Edit α} (hx : Safe x) (hh : ∀ e, Safe (h e)) :
    Safe (tryCatch x h) := by
  intro d hd
  have hs := hx d hd
  rw [runOn_tryCatch]
  rcases hr : x.runOn d with ⟨e | a, d'⟩
  · rw [hr] at hs
    exact hh e d' hs
  · rw [hr] at hs
    exact hs

theorem Safe.atomically {x : Edit α} (hx : Safe x) : Safe (atomically x) := by
  intro d hd
  have hs := hx d hd
  rw [runOn_atomically]
  rcases hr : x.runOn d with ⟨_ | a, d'⟩
  · exact hd
  · rw [hr] at hs
    exact hs

theorem Safe.adapt {x : Edit α} (hx : Safe x) (f : Error → Error) : Safe (ExceptT.adapt f x : Edit α) :=
  fun d hd => hx d hd

theorem safe_put (p : Locator) (value : NewValue) : Safe (put p value) := by
  intro d hd
  rw [runOn_put]
  exact settled_sound hd _

theorem safe_delete (p : Locator) : Safe (delete p) := by
  intro d hd
  rw [runOn_delete]
  exact settled_sound hd _

theorem safe_valueAt (p : Locator) : Safe (valueAt p) := by
  refine safe_get.bind fun d => ?_
  cases Locator.resolve p d
  · exact safe_throw _
  · exact safe_pure _

theorem Safe.whenKind {x : Edit Unit} (hx : Safe x) (p : Locator) (expected : Kind) : Safe (whenKind p expected x) :=
  (safe_valueAt p).bind fun _ => (safe_lift _).bind fun _ => hx

end Edit

end DocExpand
