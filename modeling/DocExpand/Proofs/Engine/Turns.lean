/-
  DocExpand.Proofs.Engine.Turns — a pass, invocation by invocation.

  An applied invocation puts its outcome at its place, takes its argument sibling and keeps
  every other node (`applied`). So when the turn of an invocation of a pass comes, each
  place that nothing done before stood at or above is still there (`Course.during`).
-/

import DocExpand.Proofs.Engine.Applied
import DocExpand.Proofs.Engine.Partial
import DocExpand.Proofs.Engine.Session

namespace DocExpand.Engine

open Edit

variable {e : Engine} {d d' doc : Json} {found : List Invocation}

/-! ## What an outcome holds -/

theorem parameter?_ordered {name : String} {found : Json} (h : e.parameter? name = some found) : found.Ordered := by
  obtain ⟨y, -, rfl⟩ := Option.map_eq_some_iff.mp h
  exact y.toJson_ordered

theorem combine_ordered {produces : Kind} {others : Members Json} {imported combined : Json}
    (hm : (Json.obj others).Ordered) (hi : imported.Ordered) (h : e.combine produces others imported = .ok combined) :
    combined.Ordered := by
  rcases combine_ok.mp h with ⟨-, incoming, rfl, rfl⟩ | ⟨-, -, items, rfl, rfl⟩
  · exact Json.mergeMembers_ordered _ _ hm fun m hmem => (Json.ordered_obj.mp hi).2 m hmem
  · exact hi

theorem outcome_ordered {v : Directive} {host : Locator} {key : String} {written node : Json} {argument : Slot}
    {ms : Members Json} (hm : (Json.obj ms).Ordered)
    (h : e.outcome true v host key written argument ms = some (some node)) : node.Ordered := by
  by_cases hv : v.verb = .choose ∨ v.verb = .lookup ∨ v.verb = .load
  · rcases hv with hv | hv | hv
    · obtain ⟨condition, -, hslot⟩ := (outcome_choose hv).mp h
      exact hm.get? hslot.symm
    · obtain ⟨name, found, -, hf, -, hslot⟩ := (outcome_lookup hv).mp h
      cases hslot
      exact parameter?_ordered hf
    · obtain ⟨-, imported, combined, hi, hc, -, hslot⟩ := (outcome_load hv).mp h
      cases hslot
      obtain ⟨payload, -, hd⟩ := Option.bind_eq_some_iff.mp hi
      exact combine_ordered (hm.erase key) (Json.decode_ordered hd) hc
  · obtain ⟨text, hslot⟩ := outcome_text h hv
    cases hslot
    trivial

/-- What a place holds once an outcome stands there: an item that has gone is null. -/
def seat (host : Locator) (slot : Slot) : Slot :=
  match host.getLast? with
  | some (.index _) => some (slot.getD .null)
  | _ => slot

section Become

variable {written : Json} {k l : String} {slot : Slot} {ps : Members Json}

theorem get?_become_self (ha : Members.Ascending ps) (hs : e.siblingKey k ≠ k) :
    Members.get? k (e.become written k slot ps) = slot := by
  unfold become
  split
  · rw [Members.get?_erase_of_ne hs, Members.get?_put_self ha]
  · exact Members.get?_put_self ha slot

theorem get?_become_sibling (ha : Members.Ascending ps) (hw : written = .bool true) :
    Members.get? (e.siblingKey k) (e.become written k slot ps) = none := by
  rw [become, if_pos hw]
  exact Members.get?_erase_self (ha.put slot)

theorem get?_become_of_ne (hk : k ≠ l) (hs : written = .bool true → e.siblingKey k ≠ l) :
    Members.get? l (e.become written k slot ps) = Members.get? l ps := by
  unfold become
  split
  · rename_i hw
    rw [Members.get?_erase_of_ne (hs hw), Members.get?_put_of_ne hk]
  · exact Members.get?_put_of_ne hk slot

theorem become_ordered (hps : (Json.obj ps).Ordered) (hslot : ∀ node, slot = some node → node.Ordered) :
    (Json.obj (e.become written k slot ps)).Ordered := by
  have hput : (Json.obj (Members.put k slot ps)).Ordered := by
    cases slot with
    | none => exact hps.erase k
    | some node => exact hps.insert (hslot node rfl) k
  unfold become
  split
  · exact hput.erase _
  · exact hput

theorem kept_become {node : Json} (hc : Members.get? k ps = some node) (ha : Members.Ascending ps) :
    (Json.obj ps).Kept (.obj (e.become written k slot ps)) := by
  refine ⟨rfl, fun s hs => ?_⟩
  cases s with
  | index n => cases hs
  | key l =>
    by_cases hk : k = l
    · subst hk
      exact Option.isSome_iff_exists.mpr ⟨node, hc⟩
    · by_cases hw : written = .bool true ∧ e.siblingKey k = l
      · obtain ⟨hw, rfl⟩ := hw
        change (Members.get? _ _).isSome = true at hs
        rw [get?_become_sibling ha hw] at hs
        cases hs
      · change (Members.get? _ _).isSome = true at hs
        rwa [get?_become_of_ne hk fun h h' => hw ⟨h, h'⟩] at hs

end Become

/-! ## One invocation -/

/-- What applying an invocation leaves, its outcome being `slot`. -/
structure Left (i : Invocation) (slot : Slot) (d d' : Json) : Prop where
  sound : d'.Sound
  ordered : d'.Ordered
  here : ∀ r, Locator.walk (i.host ++ r) d' = (seat i.host slot).bind (Locator.walk r)
  taken : ∀ s r, i.argumentSibling? = some s → Locator.walk (s ++ r) d' = none
  frame : ∀ p, ¬ i.host <+: p → (∀ s, i.argumentSibling? = some s → ¬ s <+: p) → Locator.Retains p d d'
  same : ∀ p, ¬ i.host <+: p → ¬ p <+: i.host → (∀ s, i.argumentSibling? = some s → ¬ s <+: p) →
    Locator.walk p d' = Locator.walk p d

section Left

variable {v : Directive} {written : Json} {host q : Locator} {k key : String} {n : Nat} {ms ps : Members Json}
  {items : List Json} {slot : Slot}

theorem safe_applied {i : Invocation} (hd : d.Sound) (h : (e.apply i).runOn d = (.ok (), d')) : d'.Sound := by
  have := e.safe_apply i d hd
  rwa [h] at this

/-- The outcome stands beneath a parent that has changed there, where the argument sibling was and nowhere else. -/
theorem left_beneath {i : Invocation} {last : Segment} {parent parent' : Json} (hd' : d'.Sound) (ho : d.Ordered)
    (hhost : i.host = q ++ [last]) (hp : Locator.walk q d = some parent) (h : Locator.replace? q parent' d = some d')
    (hparent : parent'.Ordered) (hkept : parent.Kept parent') (hhere : parent'.step? last = seat i.host slot)
    (htaken : ∀ s, i.argumentSibling? = some s → ∃ t, s = q ++ [t] ∧ parent'.step? t = none)
    (hbeside : ∀ t, t ≠ last → i.argumentSibling? ≠ some (q ++ [t]) → parent'.step? t = parent.step? t) :
    Left i slot d d' := by
  obtain ⟨m, hm, hat, hfar, hsame⟩ := Locator.modify?_walk hp h
  cases hm
  have hside : ∀ t r, ¬ i.host <+: q ++ t :: r → (∀ s, i.argumentSibling? = some s → ¬ s <+: q ++ t :: r) →
      Locator.walk (q ++ t :: r) d' = Locator.walk (q ++ t :: r) d := by
    intro t r hpt hst
    have hne : t ≠ last := by
      rintro rfl
      exact hpt ⟨r, by simp [hhost]⟩
    have hnot : i.argumentSibling? ≠ some (q ++ [t]) := fun hs => hst _ hs ⟨r, by simp⟩
    rw [Locator.walk_append q _ d, hp, hat, Option.bind_some, Locator.walk_cons, Locator.walk_cons, hbeside t hne hnot]
  refine ⟨hd', Locator.modify?_ordered ho (fun _ _ _ hf => ?_) h, fun r => ?_, fun s r hsr => ?_, fun p hpp hsp => ?_,
    fun p hpp hpa hsp => ?_⟩
  · cases hf
    exact hparent
  · rw [hhost, List.append_assoc, hat, List.singleton_append, Locator.walk_cons, hhere, hhost]
  · obtain ⟨t, rfl, hgone⟩ := htaken s hsr
    rw [List.append_assoc, hat, List.singleton_append, Locator.walk_cons, hgone]
    rfl
  · by_cases hq : q <+: p
    · obtain ⟨r, rfl⟩ := hq
      cases r with
      | nil =>
        have hnew := hat []
        rw [List.append_nil] at hnew ⊢
        exact .of_kept hp hnew hkept
      | cons t r => exact .of_eq (hside t r hpp hsp).symm
    · exact hfar p hq
  · by_cases hq : q <+: p
    · obtain ⟨r, rfl⟩ := hq
      cases r with
      | nil => exact absurd (by simp [hhost]) hpa
      | cons t r => exact hside t r hpp hsp
    · exact hsame p hq fun hpq => hpa (hpq.trans (by simp [hhost]))

theorem left_member (hs : e.siblingKey k ≠ k) (hd' : d'.Sound) (ho : d.Ordered)
    (hp : Locator.walk q d = some (.obj ps)) (hc : Members.get? k ps = some (.obj ms))
    (habsent : Locator.resolve (q ++ [.key (e.siblingKey k)]) doc = none → Members.get? (e.siblingKey k) ps = none)
    (hslot : ∀ node, slot = some node → node.Ordered)
    (h : Locator.replace? q (.obj (e.become written k slot ps)) d = some d') :
    Left (e.bind doc (q ++ [.key k]) v key written) slot d d' := by
  have hps := Locator.resolve_ordered ho (Locator.resolve_of_walk hp)
  have hasc := (Json.ordered_obj.mp hps).1
  have hsibling : (e.bind doc (q ++ [.key k]) v key written).argumentSibling? =
      if written = .bool true ∧ (Locator.resolve (q ++ [.key (e.siblingKey k)]) doc).isSome then
        some (q ++ [.key (e.siblingKey k)])
      else none := by
    rw [bind_argumentSibling?, argumentSibling?_member, ite_and]
  refine left_beneath hd' ho (bind_host ..) hp h (become_ordered hps hslot) (kept_become hc hasc) ?_ (fun s hs => ?_)
    fun t ht hnot => ?_
  · rw [bind_host, seat, List.getLast?_concat]
    exact get?_become_self hasc hs
  · rw [hsibling] at hs
    split at hs
    · rename_i hw
      cases hs
      exact ⟨_, rfl, get?_become_sibling hasc hw.1⟩
    · cases hs
  · cases t with
    | index n => rfl
    | key l =>
      have hkl : k ≠ l := fun hkl => ht (by rw [hkl])
      change Members.get? l _ = Members.get? l ps
      by_cases hl : written = .bool true ∧ e.siblingKey k = l
      · -- the sibling is not taken, because the scan has found none
        obtain ⟨hw, rfl⟩ := hl
        have hnone : Locator.resolve (q ++ [.key (e.siblingKey k)]) doc = none := by
          by_contra hthere
          exact hnot (hsibling.trans (if_pos ⟨hw, Option.isSome_iff_ne_none.mpr hthere⟩))
        rw [habsent hnone, get?_become_sibling hasc hw]
      · exact get?_become_of_ne hkl fun hw hk => hl ⟨hw, hk⟩

theorem left_item (hd' : d'.Sound) (ho : d.Ordered) (hp : Locator.walk q d = some (.arr items))
    (hc : items[n]? = some (.obj ms)) (hslot : ∀ node, slot = some node → node.Ordered)
    (h : Locator.replace? q (.arr (items.set n (slot.getD .null))) d = some d') :
    Left (e.bind doc (q ++ [.index n]) v key written) slot d d' := by
  have hchild : (Json.arr items).step? (.index n) = some (.obj ms) := hc
  have hset : Json.setChild? (.arr items) (.index n) (slot.getD .null) = some (.arr (items.set n (slot.getD .null))) :=
    if_pos (List.getElem?_eq_some_iff.mp hc).1
  obtain ⟨-, hnew, hother⟩ := Json.step?_setChild? hchild hset
  have hitems := Json.ordered_arr.mp (Locator.resolve_ordered ho (Locator.resolve_of_walk hp))
  refine left_beneath hd' ho (bind_host ..) hp h (Json.ordered_arr.mpr fun item hi => ?_) (Json.kept_setChild? hchild hset)
    ?_ (fun s hs => ?_) fun t ht _ => hother t ht
  · rcases List.mem_or_eq_of_mem_set hi with hi | rfl
    · exact hitems item hi
    · cases slot with
      | none => trivial
      | some node => exact hslot node rfl
  · rw [bind_host, seat, List.getLast?_concat]
    exact hnew
  · rw [bind_argumentSibling?, argumentSibling?_item, ite_self] at hs
    cases hs

theorem left_root (hd' : d'.Sound) (hslot : ∀ node, slot = some node → node.Ordered)
    (h : slot = some d') : Left (e.bind doc [] v key written) slot (.obj ms) d' := by
  refine ⟨hd', hslot d' h, fun r => ?_, fun s r hsr => ?_, fun p hp _ => absurd List.nil_prefix hp,
    fun p hp _ _ => absurd List.nil_prefix hp⟩
  · rw [h]
    rfl
  · rw [bind_argumentSibling?] at hsr
    split at hsr <;> cases hsr

/-- Applying an invocation that is bound to an object of the document. -/
theorem applied (hsuffix : e.config.argsSuffix ≠ "") (hd : d.Sound) (ho : d.Ordered)
    (hw : Locator.walk host d = some (.obj ms))
    (habsent : ∀ q k, host = q ++ [.key k] → Locator.resolve (q ++ [.key (e.siblingKey k)]) doc = none →
      Locator.walk (q ++ [.key (e.siblingKey k)]) d = none)
    (h : (e.apply (e.bind doc host v key written)).runOn d = (.ok (), d')) :
    ∃ slot, e.outcome true v host key written (Locator.resolve (e.bind doc host v key written).input d) ms = some slot ∧
      Left (e.bind doc host v key written) slot d d' := by
  have hms := Locator.resolve_ordered ho (Locator.resolve_of_walk hw)
  have hd' := safe_applied hd h
  rcases List.eq_nil_or_concat' host with rfl | ⟨q, s, rfl⟩
  · cases hw
    obtain ⟨slot, hout, -, hslot⟩ := (apply_root hd).mp h
    have hord : ∀ node, slot = some node → node.Ordered := fun node hn => outcome_ordered hms (hn ▸ hout)
    exact ⟨slot, hout, left_root hd' hord hslot⟩
  · rw [Locator.walk_snoc] at hw
    obtain ⟨parent, hp, hc⟩ := Option.bind_eq_some_iff.mp hw
    cases parent with
    | null | bool _ | num _ | str _ => cases s <;> cases hc
    | obj ps =>
      cases s with
      | index n => cases hc
      | key k =>
        have hs := siblingKey_ne hsuffix k
        have hgone : Locator.resolve (q ++ [.key (e.siblingKey k)]) doc = none →
            Members.get? (e.siblingKey k) ps = none := by
          intro hr
          have := habsent q k rfl hr
          rw [Locator.walk_snoc, hp] at this
          exact this
        obtain ⟨slot, hout, -, hrep⟩ := (apply_member hd (Locator.resolve_of_walk hp) hc hs hgone).mp h
        have hord : ∀ node, slot = some node → node.Ordered := fun node hn => outcome_ordered hms (hn ▸ hout)
        exact ⟨slot, hout, left_member hs hd' ho hp hc hgone hord hrep⟩
    | arr items =>
      cases s with
      | key k => cases hc
      | index n =>
        obtain ⟨slot, hout, -, hrep⟩ := (apply_item hd (Locator.resolve_of_walk hp) hc).mp h
        have hord : ∀ node, slot = some node → node.Ordered := fun node hn => outcome_ordered hms (hn ▸ hout)
        exact ⟨slot, hout, left_item hd' ho hp hc hord hrep⟩

end Left

/-! ## The invocations before -/

theorem runOn_execute_append (e : Engine) (before after : List Invocation) (d : Json) :
    (e.execute (before ++ after)).runOn d =
      match (e.execute before).runOn d with
      | (.ok (), d') => (e.execute after).runOn d'
      | (.error x, d') => (.error x, d') := by
  induction before generalizing d with
  | nil => rfl
  | cons i rest ih =>
    rw [List.cons_append, execute, execute, runOn_bind, runOn_bind]
    rcases (e.apply i).runOn d with ⟨x | u, d1⟩
    · rfl
    · simp only [ih d1]

theorem execute_snoc {before : List Invocation} {i : Invocation} :
    (e.execute (before ++ [i])).runOn d = (.ok (), d') ↔
      ∃ d1, (e.execute before).runOn d = (.ok (), d1) ∧ (e.apply i).runOn d1 = (.ok (), d') := by
  rw [runOn_execute_append]
  rcases (e.execute before).runOn d with ⟨x | u, d1⟩
  · exact ⟨fun h => (nomatch h), fun ⟨_, h, _⟩ => nomatch h⟩
  · simp only [execute, runOn_bind]
    rcases hx : (e.apply i).runOn d1 with ⟨x | u, d2⟩
    · refine ⟨fun h => (nomatch h), fun ⟨_, h, h'⟩ => ?_⟩
      cases h
      rw [hx] at h'
      cases h'
    · refine ⟨fun h => ?_, fun ⟨_, h, h'⟩ => ?_⟩
      · cases h
        exact ⟨d1, rfl, hx⟩
      · cases h
        rw [hx] at h'
        exact h'

theorem runOn_runPass (e : Engine) (d : Json) :
    e.runPass.runOn d =
      match e.scan d with
      | .error x => (.error x, d)
      | .ok found =>
        match Invocation.schedule found with
        | none => (.error .unordered, d)
        | some order =>
          match (e.execute order).runOn d with
          | (.error x, d') => (.error x, d')
          | (.ok (), d') => (.ok found.length, d') := by
  unfold runPass pending
  simp only [runOn_bind, runOn_get, runOn_lift]
  cases e.scan d with
  | error x => rfl
  | ok found =>
    cases hs : Invocation.schedule found with
    | none => simp only [hs, runOn_throw]
    | some order =>
      simp only [hs, runOn_pure, (Invocation.schedule_perm hs).length_eq]
      rcases (e.execute order).runOn d with ⟨x | u, d'⟩ <;> rfl

/-- A pass carries out what the scan has found in the order of its schedule. -/
theorem runPass_eq {order : List Invocation} (hscan : e.scan d = .ok found) (hs : Invocation.schedule found = some order) :
    e.runPass.runOn d =
      match (e.execute order).runOn d with
      | (.error x, d') => (.error x, d')
      | (.ok (), d') => (.ok found.length, d') := by
  rw [runOn_runPass, hscan]
  simp only [hs]

theorem runPass_ok {count : Nat} : e.runPass.runOn d = (.ok count, d') ↔
    ∃ found order, e.scan d = .ok found ∧ Invocation.schedule found = some order ∧
      (e.execute order).runOn d = (.ok (), d') ∧ found.length = count := by
  constructor
  · intro h
    rw [runOn_runPass] at h
    cases hscan : e.scan d with
    | error x =>
      rw [hscan] at h
      cases h
    | ok found =>
      cases hs : Invocation.schedule found with
      | none =>
        simp only [hscan, hs] at h
        cases h
      | some order =>
        simp only [hscan, hs] at h
        rcases hx : (e.execute order).runOn d with ⟨x | u, d1⟩
        · rw [hx] at h
          cases h
        · rw [hx] at h
          cases h
          exact ⟨found, order, rfl, hs, hx, rfl⟩
  · rintro ⟨found, order, hscan, hs, hx, rfl⟩
    rw [runPass_eq hscan hs, hx]

theorem Clear.of_prefix {done : List Invocation} {p q : Locator} (h : Clear done p) (hq : q <+: p) : Clear done q :=
  ⟨fun a ha hp => h.above a ha (hp.trans hq), fun a ha s hs hp => h.taken a ha s hs (hp.trans hq)⟩

theorem Clear.of_append {before after : List Invocation} {p : Locator} (h : Clear (before ++ after) p) : Clear before p :=
  ⟨fun a ha => h.above a (List.mem_append_left _ ha), fun a ha => h.taken a (List.mem_append_left _ ha)⟩

/-- A child of a node on a clear way is clear if nothing done stands there or took it. -/
theorem Clear.child {done : List Invocation} {p q : Locator} {s : Segment} (h : Clear done p) (hq : q <+: p)
    (hhost : ∀ a ∈ done, a.host ≠ q ++ [s]) (htaken : ∀ a ∈ done, a.argumentSibling? ≠ some (q ++ [s])) :
    Clear done (q ++ [s]) := by
  have hclear := h.of_prefix hq
  exact ⟨fun a ha => Locator.not_prefix_snoc (hclear.above a ha) (hhost a ha),
    fun a ha t ht => Locator.not_prefix_snoc (hclear.taken a ha t ht) fun heq => htaken a ha (heq ▸ ht)⟩

/-- The document at some point of a pass: nothing has changed at a place that is clear. -/
structure During (doc : Json) (before : List Invocation) (now : Json) : Prop where
  sound : now.Sound
  ordered : now.Ordered
  retains : ∀ p, Clear before p → Locator.Retains p doc now

/-- An invocation whose turn has come: bound to an object, which is still there. -/
structure Ready (e : Engine) (doc : Json) (i : Invocation) (v : Directive) (key : String) (written : Json)
    (ms : Members Json) (now : Json) : Prop where
  bound : i = e.bind doc i.host v key written
  there : Locator.walk i.host now = some (.obj ms)
  absent : ∀ q k, i.host = q ++ [.key k] → Locator.resolve (q ++ [.key (e.siblingKey k)]) doc = none →
    Locator.walk (q ++ [.key (e.siblingKey k)]) now = none

namespace Ready

variable {i : Invocation} {v : Directive} {key : String} {written : Json} {ms : Members Json} {now : Json}
  (h : Ready e doc i v key written ms now)

include h

theorem resolve : Locator.resolve i.host now = some (.obj ms) := Locator.resolve_of_walk h.there

theorem directive : i.directive = v := by
  rw [h.bound, bind_directive]

theorem branch : i.branch = i.host ++ [.key key] := by
  rw [h.bound, bind_host, bind_branch]

end Ready

theorem Scanned.ready (h : e.Scanned doc found) {i : Invocation} (hi : i ∈ found) {before : List Invocation} {now : Json}
    (hc : Clear before i.host) (hd : During doc before now) :
    ∃ target v key written ms, e.Visited doc i.host target ∧ e.host? target = some (v, key, written) ∧
      Ready e doc i v key written ms now := by
  obtain ⟨host, target, v, key, written, hv, ht, hi⟩ := h.mem_iff.mp hi
  have hhost : i.host = host := by rw [hi, bind_host]
  subst hhost
  have hw := (hv.walk h.ordered).1
  obtain ⟨members, rfl, -⟩ := host?_eq_some.mp ht
  obtain ⟨n, hn, hk⟩ := (hd.retains _ hc).there _ hw
  obtain ⟨ms, rfl⟩ := hk.obj
  refine ⟨_, v, key, written, ms, hv, ht, hi, hn, fun q k hq hr => ?_⟩
  -- the parent kept its kind and got no new child
  have hpre : q <+: i.host := ⟨_, hq.symm⟩
  rw [hq, Locator.walk_snoc] at hw
  obtain ⟨parent, hp, hstep⟩ := Option.bind_eq_some_iff.mp hw
  obtain ⟨n', hn', hk'⟩ := (hd.retains q (hc.of_prefix hpre)).there _ hp
  cases parent with
  | null | bool _ | num _ | str _ | arr _ => cases hstep
  | obj ps =>
    rw [Locator.resolve_snoc, Locator.resolve_of_walk hp] at hr
    rw [Locator.walk_snoc, hn']
    have hnone : (Json.obj ps).step? (.key (e.siblingKey k)) = none := hr
    cases hstep' : n'.step? (.key (e.siblingKey k)) with
    | none => exact hstep'
    | some x =>
      have := hk'.steps _ (Option.isSome_of_eq_some hstep')
      rw [hnone] at this
      cases this

theorem Ready.applied {i : Invocation} {v : Directive} {key : String} {written : Json} {ms : Members Json} {now next : Json}
    (h : Ready e doc i v key written ms now) (hsuffix : e.config.argsSuffix ≠ "") (hs : now.Sound) (ho : now.Ordered)
    (ha : (e.apply i).runOn now = (.ok (), next)) :
    ∃ slot, e.outcome true v i.host key written (Locator.resolve i.input now) ms = some slot ∧ Left i slot now next := by
  have ha' := ha
  rw [h.bound] at ha'
  have := DocExpand.Engine.applied hsuffix hs ho h.there h.absent ha'
  rwa [← h.bound] at this

theorem Pass.ready (h : e.Pass doc found) {i : Invocation} (hi : i ∈ found) {before : List Invocation} {now : Json}
    (hc : Clear before i.host) (hd : During doc before now) :
    ∃ target v key written ms, e.Visited doc i.host target ∧ e.host? target = some (v, key, written) ∧
      Ready e doc i v key written ms now := h.toScanned.ready hi hc hd

section Course

variable {before after order : List Invocation} {now : Json}

/-- During a pass every place that nothing done stood at or above is still there. -/
theorem Course.during (h : e.Course doc found order) (hd : doc.Sound) (hs : order = before ++ after)
    (hr : (e.execute before).runOn doc = (.ok (), now)) : During doc before now := by
  induction before using List.reverseRecOn generalizing after now with
  | nil =>
    cases hr
    exact ⟨hd, h.ordered, fun p _ => .refl p doc⟩
  | append_singleton before a ih =>
    rw [List.append_assoc, List.singleton_append] at hs
    obtain ⟨d1, h1, ha⟩ := execute_snoc.mp hr
    have hduring := ih hs h1
    obtain ⟨target, v, key, written, ms, -, -, hready⟩ := h.ready (h.mem_turn hs) (h.clear hs) hduring
    obtain ⟨slot, -, hleft⟩ := hready.applied h.suffix hduring.sound hduring.ordered ha
    refine ⟨hleft.sound, hleft.ordered, fun p hp => (hduring.retains p hp.of_append).trans ?_⟩
    have hlast : a ∈ before ++ [a] := by simp
    exact hleft.frame p (hp.above a hlast) (hp.taken a hlast)

/-- A place that nothing done stood or took at, above or beneath is as it was. -/
theorem Course.untouched (h : e.Course doc found order) (hd : doc.Sound) (hs : order = before ++ after)
    (hr : (e.execute before).runOn doc = (.ok (), now)) {p : Locator}
    (hp : ∀ a ∈ before, ¬ a.host <+: p ∧ ¬ p <+: a.host ∧ ∀ s, a.argumentSibling? = some s → ¬ s <+: p) :
    Locator.walk p now = Locator.walk p doc := by
  induction before using List.reverseRecOn generalizing after now with
  | nil =>
    cases hr
    rfl
  | append_singleton before a ih =>
    rw [List.append_assoc, List.singleton_append] at hs
    obtain ⟨d1, h1, ha⟩ := execute_snoc.mp hr
    have hduring := h.during hd hs h1
    obtain ⟨target, v, key, written, ms, -, -, hready⟩ := h.ready (h.mem_turn hs) (h.clear hs) hduring
    obtain ⟨slot, -, hleft⟩ := hready.applied h.suffix hduring.sound hduring.ordered ha
    obtain ⟨hab, hbe, htaken⟩ := hp a (by simp)
    rw [hleft.same p hab hbe htaken]
    exact ih hs h1 fun b hb => hp b (List.mem_append_left _ hb)

theorem Pass.during (h : e.Pass doc found) (hd : doc.Sound) (hs : Invocation.schedule found = some (before ++ after))
    (hr : (e.execute before).runOn doc = (.ok (), now)) : During doc before now := (h.course hs).during hd rfl hr

end Course

end DocExpand.Engine
