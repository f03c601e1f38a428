/-
  DocExpand.Proofs.Engine.Lockstep — two documents, carried out side by side.

  What an invocation does is decided by the object that it is bound to and by its input. Where
  two documents agree on these, carrying it out succeeds on both, with the same outcome in
  place, or fails on both for one cause (`apply_alike`). So a document and the same document
  without something that the invocation neither reads nor moves stay that far apart
  (`apply_without`). The causes are one but for the text of a document that has become too
  deep to read back (`Error.Akin`): the whole document is read, and the report on it says
  where reading stopped.

  The arm that a choice with a literal condition does not take is never read, and goes with
  its object when the choice is carried out (`choose_without`).
-/

import DocExpand.Proofs.Engine.Turns
import DocExpand.Proofs.Locator.Assign

namespace DocExpand

/-! ## Errors alike -/

/-- One error, but for the text of a document that does not read back. -/
inductive Error.Akin : Error → Error → Prop
  | same (x : Error) : Akin x x
  | undecodable (text text' : ByteArray) : Akin (.integrity (.undecodable text)) (.integrity (.undecodable text'))
  | invocation {x y : Error} (identifier : String) (place : Locator) :
    Akin x y → Akin (.invocation identifier place x) (.invocation identifier place y)

namespace Error.Akin

variable {x y z : Error}

theorem symm (h : Akin x y) : Akin y x := by
  induction h with
  | same x => exact .same x
  | undecodable text text' => exact .undecodable text' text
  | invocation identifier place _ ih => exact .invocation identifier place ih

theorem trans (h : Akin x y) (h' : Akin y z) : Akin x z := by
  induction h generalizing z with
  | same x => exact h'
  | undecodable text text' =>
    cases h' with
    | same => exact .undecodable text text'
    | undecodable _ text'' => exact .undecodable text text''
  | invocation identifier place h ih =>
    cases h' with
    | same => exact .invocation identifier place h
    | invocation _ _ h' => exact .invocation identifier place (ih h')

/-- What is said of the two differs at most in the report at its end. -/
theorem message (h : Akin x y) (r : Reports) : x.message r = y.message r ∨
    ∃ before text text', x.message r = before ++ r.json text ∧ y.message r = before ++ r.json text' := by
  have hend : ∀ a b c : String, a ++ (b ++ c) = a ++ b ++ c := fun _ _ _ => String.append_assoc.symm
  induction h with
  | same x => exact .inl rfl
  | undecodable text text' => exact .inr ⟨_, text, text', hend _ _ _, hend _ _ _⟩
  | invocation identifier place _ ih =>
    rcases ih with heq | ⟨before, text, text', hx, hy⟩
    · exact .inl (congrArg (_ ++ ·) heq)
    · exact .inr ⟨_, text, text', (congrArg (_ ++ ·) hx).trans (hend _ _ _), (congrArg (_ ++ ·) hy).trans (hend _ _ _)⟩

end Error.Akin

namespace Engine

open Edit

variable {e : Engine} {d d' t t' doc : Json} {α : Type}

/-! ## Two runs -/

/-- Both succeed with one answer and related documents, or both fail for one cause. -/
inductive Alike (R : Json → Json → Prop) : Except Error α × Json → Except Error α × Json → Prop
  | ok {a : α} {d t : Json} : R d t → Alike R (.ok a, d) (.ok a, t)
  | error {cause other : Error} {d t : Json} : cause.Akin other → Alike R (.error cause, d) (.error other, t)

theorem Alike.mono {R S : Json → Json → Prop} {x y : Except Error α × Json} (h : Alike R x y)
    (hrs : ∀ a d t, x = (.ok a, d) → y = (.ok a, t) → R d t → S d t) : Alike S x y := by
  cases h with
  | ok hr => exact .ok (hrs _ _ _ rfl rfl hr)
  | error hx => exact .error hx

theorem Alike.refl (x : Except Error α × Json) : Alike (· = ·) x x := by
  obtain ⟨r, d⟩ := x
  cases r with
  | ok a => exact .ok rfl
  | error cause => exact .error (.same cause)

theorem Alike.symm {x y : Except Error α × Json} (h : Alike (· = ·) x y) : Alike (· = ·) y x := by
  cases h with
  | ok heq => exact .ok heq.symm
  | error hx => exact .error hx.symm

theorem Alike.trans {x y z : Except Error α × Json} (h : Alike (· = ·) x y) (h' : Alike (· = ·) y z) : Alike (· = ·) x z := by
  cases h with
  | ok heq =>
    cases h' with
    | ok heq' => exact .ok (heq.trans heq')
  | error hx =>
    cases h' with
    | error hy => exact .error (hx.trans hy)

theorem Alike.atomically {R : Json → Json → Prop} {x : Edit α} (h : Alike R (x.runOn d) (x.runOn t)) :
    Alike R ((atomically x).runOn d) ((atomically x).runOn t) := by
  rw [runOn_atomically, runOn_atomically]
  revert h
  generalize x.runOn d = a
  generalize x.runOn t = b
  intro h
  cases h with
  | ok hr => exact .ok hr
  | error hx => exact .error hx

theorem Alike.bind {β : Type} {R S : Json → Json → Prop} {x : Edit α} {f : α → Edit β}
    (h : Alike R (x.runOn d) (x.runOn t))
    (hf : ∀ a d1 t1, x.runOn d = (.ok a, d1) → x.runOn t = (.ok a, t1) → R d1 t1 →
      Alike S ((f a).runOn d1) ((f a).runOn t1)) : Alike S ((x >>= f).runOn d) ((x >>= f).runOn t) := by
  rw [runOn_bind, runOn_bind]
  revert h hf
  generalize x.runOn d = a
  generalize x.runOn t = b
  intro h hf
  cases h with
  | ok hr => exact hf _ _ _ rfl rfl hr
  | error hx => exact .error hx

/-- Errors that are alike stay so with the invocation that met them. -/
theorem Alike.wrap {R : Json → Json → Prop} {x : Edit α} (h : Alike R (x.runOn d) (x.runOn t)) (i : Invocation) :
    Alike R (runOn (ExceptT.adapt (e.wrap i) x) d) (runOn (ExceptT.adapt (e.wrap i) x) t) := by
  rw [runOn_adapt, runOn_adapt]
  revert h
  generalize x.runOn d = a
  generalize x.runOn t = b
  intro h
  cases h with
  | ok hr => exact .ok hr
  | error hx => exact .error (.invocation _ _ hx)

/-! ## The same outcome in both -/

section Act

variable {host : Locator} {key : String} {ms : Members Json} {n n' node : Json}

/-- The same outcome was put in place in both documents. -/
def Placed (host : Locator) (d t d' t' : Json) : Prop :=
  ∃ slot, place host slot d = some d' ∧ place host slot t = some t'

/-- Whether a node can be put into a sound document does not depend on the document. -/
theorem verdict_replace (hd : d.Sound) (ht : t.Sound) (hrd : Locator.resolve host d = some n)
    (hrt : Locator.resolve host t = some n') (h : Locator.replace? host node d = some d')
    (h' : Locator.replace? host node t = some t') :
    verdict d' = verdict t' ∨ ∃ x y, verdict d' = .error x ∧ verdict t' = .error y ∧ x.Akin y := by
  by_cases hroot : host = []
  · subst hroot
    cases h
    cases h'
    exact .inl rfl
  · have hkd : d'.kind.isContainer = true := by
      rw [Locator.replace?_kind hroot h]
      exact hd.container
    have hkt : t'.kind.isContainer = true := by
      rw [Locator.replace?_kind hroot h']
      exact ht.container
    have hsound := (replace?_sound hd hrd h).trans (replace?_sound ht hrt h').symm
    have hdeep : d'.nesting ≤ Json.nestingLimit ↔ t'.nesting ≤ Json.nestingLimit :=
      ⟨fun hn => (hsound.mp ⟨hkd, hn⟩).shallow, fun hn => (hsound.mpr ⟨hkt, hn⟩).shallow⟩
    unfold verdict
    rw [if_pos hkd, if_pos hkt]
    by_cases hn : t'.nesting ≤ Json.nestingLimit
    · rw [if_pos hn, if_pos (hdeep.mpr hn)]
      exact .inl rfl
    · rw [if_neg hn, if_neg (mt hdeep.mp hn)]
      exact .inr ⟨_, _, rfl, rfl, .undecodable _ _⟩

theorem put_alike {value : NewValue} (hd : d.Sound) (ht : t.Sound) (hrd : Locator.resolve host d = some n)
    (hrt : Locator.resolve host t = some n') (hv : value.toJson = .ok node) :
    Alike (Placed host d t) ((put host value).runOn d) ((put host value).runOn t) := by
  obtain ⟨d1, hd1, -⟩ := replace?_isSome hrd node
  obtain ⟨t1, ht1, -⟩ := replace?_isSome hrt node
  rw [runOn_put, runOn_put, written_there hrd hv hd1, written_there hrt hv ht1, settled, settled]
  rcases verdict_replace hd ht hrd hrt hd1 ht1 with heq | ⟨x, y, hx, hy, hakin⟩
  · simp only [heq]
    cases verdict t1 with
    | ok u => exact .ok ⟨some node, hd1, ht1⟩
    | error x => exact .error (.same x)
  · simp only [hx, hy]
    exact .error hakin

theorem delete_alike {q : Locator} {k : String} (hd : d.Sound) (ht : t.Sound)
    (hrd : Locator.resolve (q ++ [.key k]) d = some n) (hrt : Locator.resolve (q ++ [.key k]) t = some n') :
    Alike (Placed (q ++ [.key k]) d t) ((delete (q ++ [.key k])).runOn d) ((delete (q ++ [.key k])).runOn t) := by
  have hfits : fits (q ++ [.key k]) none = true := by simp [fits]
  have hplace : ∀ d, place (q ++ [.key k]) none d = Locator.remove? (q ++ [.key k]) d := fun d => by
    rw [place, List.getLast?_concat]
  obtain ⟨d1, hd1⟩ := place_isSome hrd hfits
  obtain ⟨t1, ht1⟩ := place_isSome hrt hfits
  rw [(delete_ok hd).mpr (hplace d ▸ hd1), (delete_ok ht).mpr (hplace t ▸ ht1)]
  exact .ok ⟨none, hd1, ht1⟩

/-- An import decides by its object and its payload. -/
theorem load_alike {produces : Kind} {payload : ByteArray} (hd : d.Sound) (ht : t.Sound)
    (hrd : Locator.resolve host d = some (.obj ms)) (hrt : Locator.resolve host t = some (.obj ms)) :
    Alike (Placed host d t) ((e.load (host ++ [.key key]) produces payload).runOn d)
      ((e.load (host ++ [.key key]) produces payload).runOn t) := by
  rw [runOn_load produces payload hrd, runOn_load produces payload hrt]
  split
  · exact .error (.same _)
  · cases Json.decode payload with
    | none => exact .error (.same _)
    | some imported =>
      simp only
      cases e.combine produces (Members.erase key ms) imported with
      | error x => exact .error (.same _)
      | ok combined =>
        simp only
        cases hk : Members.contains key ms with
        | false =>
          rw [delete_absent hrd hk, delete_absent hrt hk]
          exact .error (.same _)
        | true =>
          -- without its invocation, the object is replaced in the same way
          obtain ⟨d1, hdd, hsd, hrd1, hpd⟩ := delete_key hd hrd hk
          obtain ⟨t1, hdt, hst, hrt1, hpt⟩ := delete_key ht hrt hk
          rw [hdd, hdt]
          have hput : Alike (Placed host d1 t1) ((put host (.tree combined)).runOn d1) ((put host (.tree combined)).runOn t1) :=
            put_alike hsd hst hrd1 hrt1 rfl
          refine hput.mono fun a d2 t2 h2 h2' _ => ⟨some combined, ?_, ?_⟩
          · exact (hpd combined).symm.trans ((put_ok hsd hrd1 rfl).mp h2).2
          · exact (hpt combined).symm.trans ((put_ok hst hrt1 rfl).mp h2').2

variable {v : Directive} {written : Json}

/-- A verb decides by its object and its input. -/
theorem act_alike (hd : d.Sound) (ht : t.Sound) (hrd : Locator.resolve host d = some (.obj ms))
    (hrt : Locator.resolve host t = some (.obj ms))
    (hinput : Locator.resolve (e.bind doc host v key written).input d = Locator.resolve (e.bind doc host v key written).input t) :
    Alike (Placed host d t) ((e.act (e.bind doc host v key written)).runOn d)
      ((e.act (e.bind doc host v key written)).runOn t) := by
  have harm : ∀ {d : Json}, Locator.resolve host d = some (.obj ms) →
      arm? (e.bind doc host v key written) d = fun condition => Members.get? (armKey condition) ms :=
    fun hr => arm?_eq (by rwa [bind_host])
  rw [runOn_act, runOn_act, harm hrd, harm hrt, hinput]
  cases e.deed (e.bind doc host v key written) _ _ with
  | refuse cause => exact .error (.same _)
  | write node =>
    rw [Deed.edit, bind_host]
    exact put_alike hd ht hrd hrt rfl
  | leave arm =>
    rw [Deed.edit, bind_host]
    rcases List.eq_nil_or_concat' host with rfl | ⟨q, s, rfl⟩
    · exact .error (.same _)
    · rw [List.getLast?_concat]
      cases s with
      | key k => exact delete_alike hd ht hrd hrt
      | index m => exact put_alike hd ht hrd hrt rfl
  | load payload =>
    rw [Deed.edit, bind_branch]
    exact (load_alike hd ht hrd hrt).atomically

theorem place_ordered {slot : Slot} (ho : d.Ordered) (hslot : ∀ node, slot = some node → node.Ordered)
    (h : place host slot d = some d') : d'.Ordered := by
  cases slot with
  | some node =>
    refine Locator.modify?_ordered ho (fun _ _ _ hf => ?_) h
    cases hf
    exact hslot node rfl
  | none =>
    unfold place at h
    rcases List.eq_nil_or_concat' host with rfl | ⟨q, s, rfl⟩
    · cases h
    · rw [List.getLast?_concat] at h
      cases s with
      | key k =>
        change Locator.remove? (q ++ [.key k]) d = some d' at h
        rw [Locator.remove?_snoc] at h
        exact Locator.modify?_ordered ho (fun _ _ hn hf => hn.eraseChild? hf) h
      | index m =>
        refine Locator.modify?_ordered ho (fun _ _ _ hf => ?_) h
        cases hf
        trivial

/-- So does applying, which also sweeps away the argument sibling. -/
theorem apply_alike (hd : d.Sound) (ht : t.Sound) (ho : d.Ordered) (hrd : Locator.resolve host d = some (.obj ms))
    (hrt : Locator.resolve host t = some (.obj ms))
    (hinput : Locator.resolve (e.bind doc host v key written).input d = Locator.resolve (e.bind doc host v key written).input t) :
    Alike (fun d' t' => ∃ d1 t1, Placed host d t d1 t1 ∧ d1.Ordered ∧ swept (e.bind doc host v key written) d1 = d' ∧
        swept (e.bind doc host v key written) t1 = t')
      ((e.apply (e.bind doc host v key written)).runOn d) ((e.apply (e.bind doc host v key written)).runOn t) := by
  have hact := act_alike hd ht hrd hrt hinput
  refine Alike.wrap (Alike.atomically (hact.bind fun a d1 t1 hd1 ht1 hplaced => ?_)) _
  obtain ⟨slot, hout, hfits, hpl⟩ := (act_ok hd hrd).mp hd1
  obtain ⟨slot', -, hfits', hpl'⟩ := (act_ok ht hrt).mp ht1
  have hord : d1.Ordered := by
    refine place_ordered ho (fun node hn => ?_) hpl
    subst hn
    exact outcome_ordered (Locator.resolve_ordered ho hrd) hout
  rw [(removeSibling_ok (place_sound hd hrd hfits hpl) fun _ => sibling_ne_nil).mpr rfl,
    (removeSibling_ok (place_sound ht hrt hfits' hpl') fun _ => sibling_ne_nil).mpr rfl]
  exact .ok ⟨d1, t1, hplaced, hord, rfl, rfl⟩

/-! ## Without what is neither read nor moved -/

/-- The document `t` is `d` without what stands at a place. -/
def Without (a : Locator) (d t : Json) : Prop := Locator.assign a none d = some (some t)

theorem place_eq_assign (hw : Locator.walk host d = some n) (slot : Slot) :
    place host slot d = (Locator.assign host slot d).join := by
  unfold place
  cases slot with
  | some node => exact Locator.replace?_eq_assign hw node
  | none =>
    rcases List.eq_nil_or_concat' host with rfl | ⟨q, s, rfl⟩
    · rfl
    · rw [List.getLast?_concat]
      cases s with
      | key k => exact Locator.remove?_eq_assign hw
      | index m =>
        rw [Locator.assign_item hw]
        exact Locator.replace?_eq_assign hw .null

theorem without_place {a : Locator} {slot : Slot} (ho : d.Ordered) (h : Without a d t) (hdiv : Locator.Diverge a host)
    (hwd : Locator.walk host d = some n) (hwt : Locator.walk host t = some n') (hpd : place host slot d = some d')
    (hpt : place host slot t = some t') : Without a d' t' := by
  rw [place_eq_assign hwd, Option.join_eq_some_iff] at hpd
  rw [place_eq_assign hwt, Option.join_eq_some_iff] at hpt
  obtain ⟨t1, ht1, hwithout⟩ := Locator.assign_comm ho hdiv h hpd
  rw [hpt] at ht1
  cases ht1
  exact hwithout

/-- The sibling of a bound invocation stands beside its object. -/
theorem sibling_beside {s : Locator} (h : (e.bind doc host v key written).argumentSibling? = some s) :
    ∃ q k, host = q ++ [.key k] ∧ s = q ++ [.key (e.siblingKey k)] := by
  rw [bind_argumentSibling?] at h
  split at h
  · obtain ⟨q, k, hq, hs, -⟩ := argumentSibling?_eq_some.mp h
    exact ⟨q, k, hq, hs⟩
  · cases h

theorem without_swept {a : Locator} (ho : d.Ordered) (h : Without a d t)
    (hparent : ∀ q k, host = q ++ [.key k] → ∃ ps, Locator.walk q d = some (.obj ps))
    (hsib : ∀ s, (e.bind doc host v key written).argumentSibling? = some s → Locator.Diverge a s) :
    Without a (swept (e.bind doc host v key written) d) (swept (e.bind doc host v key written) t) := by
  unfold swept
  cases hs : (e.bind doc host v key written).argumentSibling? with
  | none => exact h
  | some s =>
    have hdiv := hsib s hs
    obtain ⟨q, k, rfl, rfl⟩ := sibling_beside hs
    obtain ⟨ps, hq⟩ := hparent q k rfl
    have hne : q ++ [.key (e.siblingKey k)] ≠ [] := by simp
    have hsame := Locator.assign_same h hdiv
    obtain ⟨qs, hqt⟩ : ∃ qs, Locator.walk q t = some (.obj qs) := by
      have hnot : ¬ a <+: q := fun hp => hdiv.left (hp.trans (List.prefix_append ..))
      obtain ⟨n, hn, hkept⟩ := (Locator.assign_retains h hnot).there _ hq
      obtain ⟨qs, rfl⟩ := hkept.obj
      exact ⟨qs, hn⟩
    have hresolve : Locator.resolve (q ++ [.key (e.siblingKey k)]) t = Locator.resolve (q ++ [.key (e.siblingKey k)]) d := by
      rw [Locator.resolve_member hqt, Locator.resolve_member hq, hsame]
    rw [Option.bind_some, Option.bind_some]
    cases hw : Locator.walk (q ++ [.key (e.siblingKey k)]) d with
    | none =>
      have hgone : ∀ {d : Json}, Locator.resolve (q ++ [.key (e.siblingKey k)]) d = none →
          Locator.remove? (q ++ [.key (e.siblingKey k)]) d = none := by
        intro d hr
        have hsome := Locator.remove?_isSome hne d
        rw [hr] at hsome
        exact Option.isNone_iff_eq_none.mp (by rw [← Option.not_isSome, hsome]; rfl)
      rw [← Locator.resolve_member hq] at hw
      rw [hgone hw, hgone (hresolve.trans hw)]
      exact h
    | some n =>
      have hwt := hsame.trans hw
      obtain ⟨d1, hd1⟩ := Locator.assign_document hne hw none
      obtain ⟨t1, ht1, hwithout⟩ := Locator.assign_comm ho hdiv h hd1
      rw [Locator.remove?_eq_assign hw, Locator.remove?_eq_assign hwt, hd1, ht1]
      exact hwithout

/-- An invocation that neither reads nor moves what is missing does the same with or without it. -/
theorem apply_without {a : Locator} (hd : d.Sound) (ht : t.Sound) (ho : d.Ordered) (h : Without a d t)
    (hw : Locator.walk host d = some (.obj ms)) (hdiv : Locator.Diverge a host)
    (hsib : ∀ s, (e.bind doc host v key written).argumentSibling? = some s → Locator.Diverge a s) :
    Alike (Without a) ((e.apply (e.bind doc host v key written)).runOn d)
      ((e.apply (e.bind doc host v key written)).runOn t) := by
  have hwt : Locator.walk host t = some (.obj ms) := (Locator.assign_same h hdiv).trans hw
  have hinput : Locator.resolve (e.bind doc host v key written).input d =
      Locator.resolve (e.bind doc host v key written).input t := by
    rw [bind_input]
    cases hs : (e.bind doc host v key written).argumentSibling? with
    | none =>
      rw [Option.getD_none, Locator.resolve_snoc, Locator.resolve_snoc, Locator.resolve_of_walk hw,
        Locator.resolve_of_walk hwt]
    | some s =>
      have hsame := Locator.assign_same h (hsib s hs)
      obtain ⟨q, k, rfl, rfl⟩ := sibling_beside hs
      obtain ⟨ps, hp⟩ := Locator.walk_parent hw
      obtain ⟨qs, hq⟩ := Locator.walk_parent hwt
      rw [Option.getD_some, Locator.resolve_member hp, Locator.resolve_member hq, hsame]
  refine (apply_alike hd ht ho (Locator.resolve_of_walk hw) (Locator.resolve_of_walk hwt) hinput).mono ?_
  intro _ d' t' _ _ hx
  obtain ⟨d1, t1, ⟨slot, hpd, hpt⟩, hord, rfl, rfl⟩ := hx
  have hplaced := without_place ho h hdiv hw hwt hpd hpt
  refine without_swept hord hplaced (fun q k hq => ?_) hsib
  -- the object around keeps its kind
  rw [place_eq_assign hw, Option.join_eq_some_iff] at hpd
  have hnot : ¬ host <+: q := by
    intro hp
    have := hp.length_le
    rw [hq, List.length_append, List.length_singleton] at this
    omega
  subst hq
  obtain ⟨ps, hp⟩ := Locator.walk_parent hw
  obtain ⟨n, hn, hkept⟩ := (Locator.assign_retains hpd hnot).there _ hp
  obtain ⟨qs, rfl⟩ := hkept.obj
  exact ⟨qs, hn⟩

/-! ## The choice itself -/

theorem settled_alike (changed : Except Error Json) : Alike (· = ·) (settled d changed) (settled t changed) := by
  unfold settled
  cases changed with
  | error x => exact .error (.same _)
  | ok d' =>
    simp only
    cases verdict d' with
    | ok u => exact .ok rfl
    | error x => exact .error (.same _)

variable {k : String}

theorem without_member (h : Without (host ++ [.key k]) d t) :
    Locator.modify? (·.eraseChild? (.key k)) host d = some t := by
  obtain ⟨n, hn⟩ := Locator.walk_of_assign h
  rw [← Locator.remove?_snoc, Locator.remove?_eq_assign hn, h]
  rfl

/-- What replaces an object does not depend on one of its members. -/
theorem replace?_without (h : Without (host ++ [.key k]) d t) (node : Json) :
    Locator.replace? host node t = Locator.replace? host node d := by
  have hmodify := without_member h
  obtain ⟨n, m, hr, hf, -⟩ := Locator.modify?_eq_some hmodify
  rw [Locator.replace?, Locator.modify?_modify? hmodify]
  exact Locator.modify?_congr hr (by rw [hf]; rfl)

theorem put_without {value : NewValue} (h : Without (host ++ [.key k]) d t) (hr : Locator.resolve host d = some n)
    (hrt : Locator.resolve host t = some n') : Alike (· = ·) ((put host value).runOn d) ((put host value).runOn t) := by
  have hwritten : written host value d = written host value t := by
    unfold written
    cases value.toJson with
    | error x => rfl
    | ok node =>
      change (Locator.write? host node d).elim _ _ = (Locator.write? host node t).elim _ _
      rw [Locator.write?_eq_replace? hr, Locator.write?_eq_replace? hrt, replace?_without h]
  rw [runOn_put, runOn_put, hwritten]
  exact settled_alike _

/-- A removed object is gone with all its members. -/
theorem delete_without {q : Locator} {l : String} (ho : d.Ordered) (h : Without (q ++ [.key l] ++ [.key k]) d t) :
    Alike (· = ·) ((delete (q ++ [.key l])).runOn d) ((delete (q ++ [.key l])).runOn t) := by
  have hmodify := without_member h
  rw [Locator.modify?_append] at hmodify
  obtain ⟨n, m, hr, hf, -⟩ := Locator.modify?_eq_some hmodify
  have herase : (Locator.modify? (·.eraseChild? (.key k)) [.key l] n).bind (·.eraseChild? (.key l)) =
      n.eraseChild? (.key l) := by
    obtain ⟨x, hx⟩ := Locator.walk_of_assign h
    rw [List.append_assoc, Locator.walk_append] at hx
    obtain ⟨parent, hp, hx⟩ := Option.bind_eq_some_iff.mp hx
    rw [Locator.resolve_of_walk hp] at hr
    cases hr
    obtain ⟨c, hc, -⟩ := Option.bind_eq_some_iff.mp hx
    cases n with
    | null | bool _ | num _ | str _ | arr _ => cases hc
    | obj ps =>
      have hasc := (Json.ordered_obj.mp (Locator.resolve_ordered ho (Locator.resolve_of_walk hp))).1
      have hthere : Members.contains l ps = true := Option.isSome_of_eq_some hc
      have hchanged := hf
      rw [Locator.modify?_cons, Json.child?_of_step? hc, Option.bind_some] at hchanged
      obtain ⟨c', -, hset⟩ := Option.bind_eq_some_iff.mp hchanged
      cases hset
      have hcontains : Members.contains l (Members.insert l c' ps) = true :=
        Option.isSome_of_eq_some (Members.get?_insert_self ..)
      have hleft : Json.eraseChild? (.obj (Members.insert l c' ps)) (.key l) =
          some (.obj (Members.erase l (Members.insert l c' ps))) := if_pos hcontains
      have hright : Json.eraseChild? (.obj ps) (.key l) = some (.obj (Members.erase l ps)) := if_pos hthere
      have hput : Members.erase l (Members.insert l c' ps) = Members.erase l ps := Members.put_put hasc (some c') none
      rw [hf, Option.bind_some, hright]
      exact hleft.trans (by rw [hput])
  have hremove : Locator.remove? (q ++ [.key l]) t = Locator.remove? (q ++ [.key l]) d := by
    rw [Locator.remove?_snoc, Locator.remove?_snoc, Locator.modify?_modify? hmodify]
    exact Locator.modify?_congr hr herase
  rw [runOn_delete, runOn_delete, removed, removed, hremove]
  exact settled_alike _

/-- A choice with a literal condition ends the same with or without the arm that it does not take. -/
theorem choose_without {condition : Bool} (ho : d.Ordered) (hv : v.verb = .choose)
    (hnone : (e.bind doc host v key written).argumentSibling? = none) (hne : armKey (!condition) ≠ key)
    (h : Without (host ++ [.key (armKey (!condition))]) d t) (hw : Locator.walk host d = some (.obj ms))
    (hkey : Members.get? key ms = some (.bool condition)) :
    Alike (· = ·) ((e.apply (e.bind doc host v key written)).runOn d)
      ((e.apply (e.bind doc host v key written)).runOn t) := by
  have hrd := Locator.resolve_of_walk hw
  have hmodify := without_member h
  obtain ⟨n, m, hr, hf, hrt⟩ := Locator.modify?_eq_some hmodify
  rw [hrd] at hr
  cases hr
  -- what is left of the object has the condition and the other arm
  obtain ⟨rest, rfl, hrest⟩ : ∃ rest, m = .obj rest ∧ ∀ l, armKey (!condition) ≠ l → Members.get? l rest = Members.get? l ms := by
    change (if _ then some _ else none) = some m at hf
    split at hf
    · cases hf
      exact ⟨_, rfl, fun l hl => Members.get?_erase_of_ne hl⟩
    · cases hf
  have hat : ∀ {d : Json} {ms : Members Json} (l : String), Locator.resolve host d = some (.obj ms) →
      Locator.resolve (host ++ [.key l]) d = Members.get? l ms := by
    intro d ms l hr
    rw [Locator.resolve_snoc, hr]
    rfl
  have hinput : (e.bind doc host v key written).input = host ++ [.key key] := by
    rw [bind_input, hnone]
    rfl
  have hact : Alike (· = ·) ((e.act (e.bind doc host v key written)).runOn d)
      ((e.act (e.bind doc host v key written)).runOn t) := by
    have harm : armKey (!condition) ≠ armKey condition := by cases condition <;> decide +kernel
    have hbound : (e.bind doc host v key written).directive.verb = .choose := by rw [bind_directive, hv]
    simp only [runOn_act, hinput, hat _ hrd, hat _ hrt, hkey, hrest _ hne, deed_choose hbound, arm?, bind_host, hrest _ harm]
    cases Members.get? (armKey condition) ms with
    | some chosen =>
      simp only [Deed.edit, bind_host]
      exact put_without h hrd hrt
    | none =>
      simp only [Deed.edit, bind_host]
      rcases List.eq_nil_or_concat' host with rfl | ⟨q, s, rfl⟩
      · exact .error (.same _)
      · rw [List.getLast?_concat]
        cases s with
        | key l => exact delete_without ho h
        | index j => exact put_without h hrd hrt
  refine Alike.wrap (Alike.atomically (hact.bind fun a d1 t1 _ _ heq => ?_)) _
  subst heq
  rw [removeSibling, hnone]
  exact .ok rfl

end Act

/-! ## A pass without a discarded arm -/

/-- A choice of a scanned document whose condition is literal. -/
structure Literal (e : Engine) (doc : Json) (host : Locator) (members : Members Json) (v : Directive) (key : String)
    (condition : Bool) : Prop where
  visited : e.Visited doc host (.obj members)
  bound : e.host? (.obj members) = some (v, key, .bool condition)
  verb : v.verb = .choose
  alone : (e.bind doc host v key (.bool condition)).argumentSibling? = none

namespace Literal

variable {found order before after : List Invocation} {i : Invocation} {host : Locator} {members : Members Json}
  {v : Directive} {key : String} {condition : Bool} {p : Locator} {target now other : Json}

theorem last_key {q r : Locator} {k l : String} (h : q ++ [Segment.key k] = r ++ [Segment.key l]) : k = l := by
  have := (List.append_inj' h rfl).2
  cases this
  rfl

theorem armKey_isArm (condition : Bool) : isArm (armKey condition) = true := by cases condition <;> decide +kernel

/-- Nothing is visited in an arm. -/
theorem not_in_arm (hl : e.Literal doc host members v key condition) (ho : doc.Ordered) (hv : e.Visited doc p target) :
    ¬ host ++ [.key (armKey (!condition))] <+: p := by
  intro hp
  obtain ⟨r, rfl⟩ := hp
  obtain ⟨middle, hm, -⟩ := hv.split
  obtain ⟨o, ho', hm⟩ := hm.split
  cases ho'.unique hl.visited ho
  cases hm with
  | member _ ha _ =>
    have hskips : e.skips members = true := by
      rw [skips, host?_obj.mp hl.bound]
      simp [hl.verb]
    rw [hskips, armKey_isArm] at ha
    cases ha

theorem key_shaped (hl : e.Literal doc host members v key condition) : Directive.isShaped key e.config.domain = true := by
  obtain ⟨hm, -, hall⟩ := invocation?_some (host?_obj.mp hl.bound)
  exact (hall _ hm).mpr rfl

section Turn

variable (hl : e.Literal doc host members v key condition) (hsuffix : e.config.argsSuffix = "_args")
  (h : e.Course doc found order) (hs : order = before ++ i :: after)

include hl hsuffix h hs

/-- Before the choice's own turn, an object whose turn comes stands apart from the arm. -/
theorem diverge_host (hi : e.bind doc host v key (.bool condition) ∉ before)
    (hne : i ≠ e.bind doc host v key (.bool condition)) :
    Locator.Diverge (host ++ [.key (armKey (!condition))]) i.host ∧
      ∀ s, i.argumentSibling? = some s → Locator.Diverge (host ++ [.key (armKey (!condition))]) s := by
  have hmem : e.bind doc host v key (.bool condition) ∈ order :=
    h.perm.mem_iff.mpr (h.mem_iff.mpr ⟨host, _, v, key, _, hl.visited, hl.bound, rfl⟩)
  rw [hs, List.mem_append, List.mem_cons] at hmem
  obtain ⟨x, y, rfl⟩ : ∃ x y, after = x ++ e.bind doc host v key (.bool condition) :: y := by
    rcases hmem with hm | hm | hm
    · exact absurd hm hi
    · exact absurd hm.symm hne
    · exact List.append_of_mem hm
  -- when the choice's turn comes, this one has been
  have hclear : Clear (before ++ i :: x) (e.bind doc host v key (.bool condition)).host :=
    h.clear (by rw [hs, List.append_assoc, List.cons_append])
  rw [bind_host] at hclear
  have hin : i ∈ before ++ i :: x := by simp
  obtain ⟨p, target, w, l, written, hv, -, hbind⟩ := h.mem_iff.mp (h.mem_turn hs)
  have hp : i.host = p := by rw [hbind, bind_host]
  have hnot := hl.not_in_arm h.ordered hv
  refine ⟨⟨by rwa [hp], fun hpre => ?_⟩, fun s hsib => ⟨fun hpre => ?_, fun hpre => ?_⟩⟩
  · rcases List.prefix_concat_iff.mp hpre with heq | hpre
    · exact hnot (by rw [← hp, heq])
    · exact hclear.above i hin hpre
  · rw [hbind] at hsib
    obtain ⟨q, k, hq, hs'⟩ := sibling_beside hsib
    rw [hs', List.prefix_concat_iff] at hpre
    rcases hpre with heq | hpre
    · have hk := last_key heq
      have := siblingKey_not_arm hsuffix k
      rw [← hk, armKey_isArm] at this
      cases this
    · exact hnot (by rw [hq]; exact hpre.trans (List.prefix_append ..))
  · have hsib' := hsib
    rw [hbind] at hsib'
    obtain ⟨q, k, hq, hs'⟩ := sibling_beside hsib'
    rcases List.prefix_concat_iff.mp hpre with heq | hpre
    · have hk := last_key (hs'.symm.trans heq)
      have := siblingKey_not_arm hsuffix k
      rw [hk, armKey_isArm] at this
      cases this
    · exact hclear.taken i hin s hsib hpre

omit hs in
/-- The condition is there until the choice's turn. -/
theorem condition_there (hd : doc.Sound) (hs : order = before ++ e.bind doc host v key (.bool condition) :: after)
    (hr : (e.execute before).runOn doc = (.ok (), now)) :
    Locator.walk (host ++ [.key key]) now = some (.bool condition) := by
  have hclear := h.clear hs
  rw [bind_host] at hclear
  have hwritten : e.Visited doc (host ++ [.key key]) (.bool condition) := by
    obtain ⟨hm, -, -⟩ := invocation?_some (host?_obj.mp hl.bound)
    refine hl.visited.trans (.member hm ?_ (.here _))
    rw [isArm_of_shaped hl.key_shaped, Bool.and_false]
  rw [h.untouched hd hs hr, (hwritten.walk h.ordered).1]
  intro a ha
  obtain ⟨p, target, w, l, written, hv, ht, hbind⟩ := h.mem_iff.mp (h.mem_before hs ha)
  have hp : a.host = p := by rw [hbind, bind_host]
  rw [hp]
  refine ⟨fun hpre => ?_, fun hpre => ?_, fun s hsib hpre => ?_⟩
  · rcases List.prefix_concat_iff.mp hpre with rfl | hpre
    · cases hv.unique hwritten h.ordered
      cases ht
    · exact hclear.above a ha (hp ▸ hpre)
  · obtain ⟨r, rfl⟩ := hpre
    obtain ⟨middle, hm, hrest⟩ := hv.split
    cases hm.unique hwritten h.ordered
    cases hrest
    cases ht
  · rcases List.prefix_concat_iff.mp hpre with heq | hpre
    · rw [hbind] at hsib
      obtain ⟨q, k, -, hs'⟩ := sibling_beside hsib
      have hk := last_key (hs'.symm.trans heq)
      have := siblingKey_unshaped hsuffix k
      rw [hk, hl.key_shaped] at this
      cases this
    · exact hclear.taken a ha s hsib hpre

end Turn

/-- A turn before the choice's leaves only the arm missing, and the choice's own turn nothing. -/
theorem turn_without {t : Json} (hl : e.Literal doc host members v key condition) (hsuffix : e.config.argsSuffix = "_args")
    (h : e.Course doc found order) (h' : e.Course other found order) (hd : doc.Sound) (hd' : other.Sound)
    (hs : order = before ++ i :: after) (hrun : (e.execute before).runOn doc = (.ok (), now))
    (hrun' : (e.execute before).runOn other = (.ok (), t)) (hin : e.bind doc host v key (.bool condition) ∉ before)
    (hrel : Without (host ++ [.key (armKey (!condition))]) now t) :
    Alike (fun d t => if i = e.bind doc host v key (.bool condition) then d = t
        else Without (host ++ [.key (armKey (!condition))]) d t)
      ((e.apply i).runOn now) ((e.apply i).runOn t) := by
  have hduring := h.during hd hs hrun
  have hduring' := h'.during hd' hs hrun'
  obtain ⟨target, w, l, written, ms, -, -, hready⟩ := h.ready (h.mem_turn hs) (h.clear hs) hduring
  by_cases hi : i = e.bind doc host v key (.bool condition)
  · simp only [if_pos hi]
    have hthere := hready.there
    rw [hi, bind_host] at hthere
    have hcondition := hl.condition_there hsuffix h hd (hi ▸ hs) hrun
    rw [Locator.walk_snoc, hthere] at hcondition
    have hne : armKey (!condition) ≠ key := by
      intro he
      have := isArm_of_shaped hl.key_shaped
      rw [← he, armKey_isArm] at this
      cases this
    rw [hi]
    exact choose_without hduring.ordered hl.verb hl.alone hne hrel hthere hcondition
  · simp only [if_neg hi]
    obtain ⟨hdiv, hsib⟩ := hl.diverge_host hsuffix h hs hin hi
    have hbound := hready.bound
    rw [hbound] at hsib
    have happly := apply_without hduring.sound hduring'.sound hduring.ordered hrel hready.there hdiv hsib
    rwa [← hbound] at happly

/-- Until the choice's turn only the arm is missing, from then on nothing. -/
theorem execute_without (hl : e.Literal doc host members v key condition) (hsuffix : e.config.argsSuffix = "_args")
    (h : e.Course doc found order) (h' : e.Course other found order) (hd : doc.Sound) (hd' : other.Sound)
    (hw : Without (host ++ [.key (armKey (!condition))]) doc other) (hs : order = before ++ after) :
    Alike (fun d t => if e.bind doc host v key (.bool condition) ∈ before then d = t
        else Without (host ++ [.key (armKey (!condition))]) d t)
      ((e.execute before).runOn doc) ((e.execute before).runOn other) := by
  induction before using List.reverseRecOn generalizing after with
  | nil => exact .ok (by rwa [if_neg (List.not_mem_nil)])
  | append_singleton before i ih =>
    rw [List.append_assoc, List.singleton_append] at hs
    have hbefore := ih hs
    rw [runOn_execute_append, runOn_execute_append]
    rcases hrun : (e.execute before).runOn doc with ⟨x | u, d⟩
    · rcases hrun' : (e.execute before).runOn other with ⟨y | u', t⟩
      · rw [hrun, hrun'] at hbefore
        cases hbefore with
        | error hx => exact .error hx
      · rw [hrun, hrun'] at hbefore
        cases hbefore
    · rcases hrun' : (e.execute before).runOn other with ⟨y | u', t⟩
      · rw [hrun, hrun'] at hbefore
        cases hbefore
      · rw [hrun, hrun'] at hbefore
        obtain ⟨hrel⟩ := hbefore
        have hone : ∀ {R : Json → Json → Prop}, Alike R ((e.apply i).runOn d) ((e.apply i).runOn t) →
            Alike R ((e.execute [i]).runOn d) ((e.execute [i]).runOn t) :=
          fun hx => hx.bind fun _ _ _ _ _ hr => .ok hr
        refine hone ?_
        by_cases hin : e.bind doc host v key (.bool condition) ∈ before
        · rw [if_pos hin] at hrel
          subst hrel
          refine (Alike.refl _).mono fun _ _ _ _ _ heq => ?_
          rwa [if_pos (List.mem_append_left _ hin)]
        · rw [if_neg hin] at hrel
          refine (turn_without hl hsuffix h h' hd hd' hs hrun hrun' hin hrel).mono fun _ _ _ _ _ hr => ?_
          simpa [hin, eq_comm] using hr

/-- A pass ends the same with or without the arm. -/
theorem runPass_without (hl : e.Literal doc host members v key condition) (hsuffix : e.config.argsSuffix = "_args")
    (ho : doc.Ordered) (ho' : other.Ordered) (hd : doc.Sound) (hd' : other.Sound)
    (hw : Without (host ++ [.key (armKey (!condition))]) doc other) (hscan : e.scan other = e.scan doc)
    (hfound : e.scan doc = .ok found) :
    Alike (· = ·) (e.runPass.runOn doc) (e.runPass.runOn other) := by
  have hne : e.config.argsSuffix ≠ "" := by
    rw [hsuffix]
    decide +kernel
  have hpass : e.Pass doc found := ⟨ho, hne, hfound, apart_of_default hsuffix hfound⟩
  have hfound' := hscan.trans hfound
  have hpass' : e.Pass other found := ⟨ho', hne, hfound', apart_of_default hsuffix hfound'⟩
  obtain ⟨order, hs⟩ := exists_schedule ho hfound
  have hrun := hl.execute_without hsuffix (hpass.course hs) (hpass'.course hs) hd hd' hw (List.append_nil _).symm
  have hmem : e.bind doc host v key (.bool condition) ∈ order :=
    (Invocation.mem_schedule hs).mpr (hpass.toScanned.mem_iff.mpr ⟨host, _, v, key, _, hl.visited, hl.bound, rfl⟩)
  simp only [if_pos hmem] at hrun
  rw [runPass_eq hfound hs, runPass_eq hfound' hs]
  revert hrun
  generalize (e.execute order).runOn doc = a
  generalize (e.execute order).runOn other = b
  intro hx
  cases hx with
  | ok heq => exact .ok heq
  | error hx => exact .error hx

end Literal

end Engine

end DocExpand
