/-
  DocExpand.Proofs.Engine.Resolved — what the string directives read.

  During a pass every key that is shaped like a directive belongs to an invocation whose turn
  is still to come, stands in an arm that was passed over, or was put there by a choice, a
  look-up or an import of the pass (`Accounted`). What stands in the input of an invocation
  has had its turn before, so a shaped key in there is of the last two kinds
  (`shaped_input_iff`). A string directive then makes a string of it, and no later pass finds it.
-/

import DocExpand.Proofs.Engine.Turns
import DocExpand.Proofs.Engine.Value

namespace DocExpand.Engine

open Edit

/-! ## Shaped keys -/

mutual

/-- Some object of the tree has a key shaped like a directive. -/
def shaped (e : Engine) : Json → Bool
  | .obj members => shapedMembers e members
  | .arr items => shapedItems e items
  | _ => false

def shapedItems (e : Engine) : List Json → Bool
  | [] => false
  | item :: rest => shaped e item || shapedItems e rest

def shapedMembers (e : Engine) : List (String × Json) → Bool
  | [] => false
  | (key, value) :: rest => Directive.isShaped key e.config.domain || shaped e value || shapedMembers e rest

end

variable {e : Engine} {doc d d' now node n : Json} {found before after : List Invocation} {i a : Invocation}
  {p : Locator}

/-- One of the keys is shaped like a directive. -/
def HasShaped (e : Engine) (ms : Members Json) : Prop := ∃ m ∈ ms, Directive.isShaped m.1 e.config.domain = true

theorem shapedItems_iff {items : List Json} : shapedItems e items = true ↔ ∃ item ∈ items, e.shaped item = true := by
  induction items with
  | nil => simp [shapedItems]
  | cons item rest ih => simp [shapedItems, ih]

theorem shapedMembers_iff {ms : Members Json} :
    shapedMembers e ms = true ↔ e.HasShaped ms ∨ ∃ m ∈ ms, e.shaped m.2 = true := by
  unfold HasShaped
  induction ms with
  | nil => simp [shapedMembers]
  | cons m rest ih =>
    obtain ⟨key, value⟩ := m
    simp only [shapedMembers, Bool.or_eq_true, ih, List.exists_mem_cons_iff, or_assoc, or_left_comm]

theorem shaped_of_resolve (hr : Locator.resolve p node = some n) (h : e.shaped n = true) : e.shaped node = true := by
  induction p generalizing node with
  | nil =>
    cases hr
    exact h
  | cons s p ih =>
    obtain ⟨c, hc, hr⟩ := Option.bind_eq_some_iff.mp hr
    have hshaped := ih hr
    cases node with
    | null | bool _ | num _ | str _ => cases hc
    | obj members => exact shapedMembers_iff.mpr (.inr ⟨(s.text, c), Members.mem_of_get? hc, hshaped⟩)
    | arr items =>
      obtain ⟨m, -, hm⟩ := Option.bind_eq_some_iff.mp hc
      exact shapedItems_iff.mpr ⟨c, List.mem_of_getElem? hm, hshaped⟩

mutual

/-- A shaped key of a tree stands in an object that a walk leads to. -/
theorem walk_of_shaped : ∀ node : Json, node.Ordered → e.shaped node = true →
    ∃ p ms, Locator.walk p node = some (.obj ms) ∧ e.HasShaped ms
  | .obj members, ho, h => by
    rw [shaped, shapedMembers_iff] at h
    rcases h with h | ⟨m, hm, h⟩
    · exact ⟨[], members, rfl, h⟩
    · obtain ⟨p, ms, hw, hs⟩ := walk_of_shapedMembers members (Json.ordered_obj.mp ho).2 m hm h
      refine ⟨.key m.1 :: p, ms, ?_, hs⟩
      rw [Locator.walk_cons, Json.step?, Members.get?_of_mem (Json.ordered_obj.mp ho).1 hm]
      exact hw
  | .arr items, ho, h => by
    rw [shaped, shapedItems_iff] at h
    obtain ⟨item, hi, h⟩ := h
    obtain ⟨p, ms, hw, hs⟩ := walk_of_shapedItems items (Json.ordered_arr.mp ho) item hi h
    obtain ⟨n, hn⟩ := List.mem_iff_getElem?.mp hi
    refine ⟨.index n :: p, ms, ?_, hs⟩
    rw [Locator.walk_cons, Json.step?, hn]
    exact hw
  | .null, _, h | .bool _, _, h | .num _, _, h | .str _, _, h => nomatch h

theorem walk_of_shapedItems : ∀ items : List Json, (∀ item ∈ items, item.Ordered) → ∀ item ∈ items,
    e.shaped item = true → ∃ p ms, Locator.walk p item = some (.obj ms) ∧ e.HasShaped ms
  | [], _ => fun _ hi => nomatch hi
  | x :: rest, ho => by
    intro item hi h
    rcases List.mem_cons.mp hi with heq | hi
    · rw [heq] at h ⊢
      exact walk_of_shaped x (ho x (List.mem_cons_self ..)) h
    · exact walk_of_shapedItems rest (fun y hy => ho y (List.mem_cons_of_mem _ hy)) item hi h

theorem walk_of_shapedMembers : ∀ ms : List (String × Json), (∀ m ∈ ms, m.2.Ordered) → ∀ m ∈ ms,
    e.shaped m.2 = true → ∃ p ms', Locator.walk p m.2 = some (.obj ms') ∧ e.HasShaped ms'
  | [], _ => fun _ hm => nomatch hm
  | (k, x) :: rest, ho => by
    intro m hm h
    rcases List.mem_cons.mp hm with heq | hm
    · rw [heq] at h ⊢
      exact walk_of_shaped x (ho (k, x) (List.mem_cons_self ..)) h
    · exact walk_of_shapedMembers rest (fun y hy => ho y (List.mem_cons_of_mem _ hy)) m hm h

end

/-- Whatever an object with a shaped key stands beneath has a shaped key. -/
theorem shaped_above {q : Locator} {ms : Members Json} (hp : p <+: q) (hw : Locator.walk q d = some (.obj ms))
    (hms : e.HasShaped ms) : ∃ n, Locator.resolve p d = some n ∧ e.shaped n = true := by
  obtain ⟨r, rfl⟩ := hp
  rw [Locator.walk_append] at hw
  obtain ⟨n, hn, hr⟩ := Option.bind_eq_some_iff.mp hw
  exact ⟨n, Locator.resolve_of_walk hn, shaped_of_resolve (Locator.resolve_of_walk hr) (shapedMembers_iff.mpr (.inl hms))⟩

/-! ## Where they come from -/

/-- The verbs whose outcome may hold anything. -/
def Brings (i : Invocation) : Prop :=
  i.directive.verb = .choose ∨ i.directive.verb = .lookup ∨ i.directive.verb = .load

/-- Each shaped key was put there, stands in an arm that was passed over, or waits for its turn. -/
def Accounted (e : Engine) (found before : List Invocation) (d : Json) : Prop :=
  ∀ p ms, Locator.walk p d = some (.obj ms) → e.HasShaped ms →
    (∃ a ∈ before, Brings a ∧ a.host <+: p) ∨
    (∃ a ∈ found, a.directive.verb = .choose ∧ ∃ arm, isArm arm = true ∧ a.host ++ [.key arm] <+: p) ∨
    (∃ a ∈ found, a ∉ before ∧ a.host = p)

/-- A walk stays among the visited nodes or enters an arm of a choice. -/
theorem visited_of_walk (hw : Locator.walk p node = some n) : e.Visited node p n ∨
    ∃ q target d key written arm, e.Visited node q target ∧ e.host? target = some (d, key, written) ∧
      d.verb = .choose ∧ isArm arm = true ∧ q ++ [.key arm] <+: p := by
  induction p generalizing node with
  | nil =>
    cases hw
    exact .inl (.here _)
  | cons s p ih =>
    obtain ⟨c, hc, hw⟩ := Option.bind_eq_some_iff.mp hw
    -- what holds beneath a visited child holds beneath the node
    have hlift : e.Visited node [s] c → e.Visited node (s :: p) n ∨
        ∃ q target d key written arm, e.Visited node q target ∧ e.host? target = some (d, key, written) ∧
          d.verb = .choose ∧ isArm arm = true ∧ q ++ [.key arm] <+: s :: p := by
      intro hv
      rcases ih hw with hin | ⟨q, target, d, key, written, arm, hq, ht, hd, harm, hp⟩
      · exact .inl (hv.trans hin)
      · exact .inr ⟨s :: q, target, d, key, written, arm, hv.trans hq, ht, hd, harm, List.cons_prefix_cons.mpr ⟨rfl, hp⟩⟩
    cases node with
    | null | bool _ | num _ | str _ => cases s <;> cases hc
    | arr items =>
      cases s with
      | key k => cases hc
      | index m => exact hlift (.item hc (.here c))
    | obj members =>
      cases s with
      | index m => cases hc
      | key k =>
        have hmem := Members.mem_of_get? hc
        cases ha : e.skips members && isArm k with
        | false => exact hlift (.member hmem ha (.here c))
        | true =>
          rw [Bool.and_eq_true] at ha
          obtain ⟨⟨d, key, written⟩, hx, hverb⟩ := (Option.any_eq_true _ _).mp ha.1
          exact .inr ⟨[], .obj members, d, key, written, k, .here _, hx, by simpa using hverb, ha.2, ⟨p, rfl⟩⟩

/-- No arm of a choice lies on the way to a visited node. -/
theorem Scanned.arm_not_above (h : e.Scanned doc found) (ha : a ∈ found) (hv : a.directive.verb = .choose) {arm : String}
    (harm : isArm arm = true) (hn : e.Visited doc p n) : ¬ a.host ++ [.key arm] <+: p := by
  intro hp
  obtain ⟨host, target, v, key, written, hvis, ht, rfl⟩ := h.mem_iff.mp ha
  obtain ⟨r, rfl⟩ := hp
  rw [bind_host] at hn
  obtain ⟨x, hx, -⟩ := hn.split
  obtain ⟨y, hy, hstep⟩ := hx.split
  have hyt := hy.unique hvis h.ordered
  subst hyt
  cases hstep with
  | @member members _ _ _ _ hm hskip _ =>
    have hskips : e.skips members = true := by
      have hverb : v.verb = .choose := hv
      rw [skips]
      change (e.host? (.obj members)).any _ = true
      rw [ht]
      simp [hverb]
    rw [hskips, harm] at hskip
    cases hskip

/-- A shaped key of a visited object is the key of an invocation. -/
theorem Scanned.branch_of_shaped (h : e.Scanned doc found) {ms : Members Json} {key : String} {written : Json}
    (hv : e.Visited doc p (.obj ms)) (hm : (key, written) ∈ ms) (hs : Directive.isShaped key e.config.domain = true) :
    ∃ a ∈ found, a.branch = p ++ [.key key] := by
  have hopen : ∃ o, e.open? true (fun _ => false) (Locator.root ++ p) (.obj ms) = some o := by
    have hdoc : e.open? true (fun _ => false) Locator.root doc = some doc := open?_pending doc h.scanned
    by_cases hp : p = []
    · subst hp
      cases hv
      exact ⟨_, hdoc⟩
    · obtain ⟨o, beside, slot, ho, -⟩ := open?_carried hdoc hv hp
      exact ⟨o, ho⟩
  obtain ⟨o, ho⟩ := hopen
  rw [open?] at ho
  cases hinv : e.invocation? ms with
  | none =>
    rw [hinv] at ho
    cases ho
  | some found' =>
    cases found' with
    | none =>
      rw [invocation?_none hinv _ hm] at hs
      cases hs
    | some x =>
      obtain ⟨v, l, argument⟩ := x
      cases ((invocation?_some hinv).2.2 _ hm).mp hs
      exact ⟨_, h.mem_iff.mpr ⟨p, .obj ms, v, key, written, hv, host?_obj.mpr hinv, rfl⟩, bind_branch ..⟩

theorem Pass.accounted_start (h : e.Pass doc found) : Accounted e found [] doc := by
  intro p ms hw hs
  rcases visited_of_walk hw with hv | ⟨q, target, v, key, written, arm, hq, ht, hverb, harm, hp⟩
  · obtain ⟨m, hm, hshape⟩ := hs
    obtain ⟨a, ha, hbranch⟩ := h.toScanned.branch_of_shaped hv hm hshape
    exact .inr (.inr ⟨a, ha, List.not_mem_nil, by rw [Invocation.host, hbranch, List.dropLast_concat]⟩)
  · refine .inr (.inl ⟨_, h.toScanned.mem_iff.mpr ⟨q, target, v, key, written, hq, ht, rfl⟩, hverb, arm, harm, ?_⟩)
    rwa [bind_host]

theorem walk_text {text : String} {ms : Members Json} : Locator.walk p (.str text) ≠ some (.obj ms) := by
  intro hw
  cases p with
  | nil => cases hw
  | cons s p => cases s <;> cases hw

theorem hasShaped_of_kept {ms ms' : Members Json} (hk : (Json.obj ms).Kept (.obj ms')) (h : e.HasShaped ms') :
    e.HasShaped ms := by
  obtain ⟨m, hm, hs⟩ := h
  have hthere : ((Json.obj ms').step? (.key m.1)).isSome = true := Members.contains_iff.mpr (Members.mem_keys_of_mem hm)
  obtain ⟨x, hx, hkey⟩ := List.mem_map.mp (Members.contains_iff.mp (hk.steps _ hthere))
  exact ⟨x, hx, by rw [hkey]; exact hs⟩

/-- One more invocation accounts for what it puts. -/
theorem accounted_step {slot : Slot} (hacc : Accounted e found before d) (hleft : Left a slot d d')
    (hslot : ¬ Brings a → ∃ text, slot = some (.str text)) : Accounted e found (before ++ [a]) d' := by
  intro p ms hw hs
  by_cases hp : a.host <+: p
  · by_cases hb : Brings a
    · exact .inl ⟨a, by simp, hb, hp⟩
    · obtain ⟨text, rfl⟩ := hslot hb
      obtain ⟨r, rfl⟩ := hp
      rw [hleft.here] at hw
      have hseat : seat a.host (some (.str text)) = some (.str text) := by
        unfold seat
        split <;> rfl
      rw [hseat] at hw
      exact absurd hw walk_text
  · have hsib : ∀ s, a.argumentSibling? = some s → ¬ s <+: p := by
      intro s hs' hsp
      obtain ⟨r, rfl⟩ := hsp
      rw [hleft.taken s r hs'] at hw
      cases hw
    obtain ⟨n, hn, hk⟩ := (hleft.frame p hp hsib).back _ hw
    cases n with
    | null | bool _ | num _ | str _ | arr _ => cases hk.kind
    | obj ms' =>
      rcases hacc p ms' hn (hasShaped_of_kept hk hs) with ⟨b, hb, hbrings, hbp⟩ | harm | ⟨b, hb, hnot, hbp⟩
      · exact .inl ⟨b, List.mem_append_left _ hb, hbrings, hbp⟩
      · exact .inr (.inl harm)
      · refine .inr (.inr ⟨b, hb, fun hmem => ?_, hbp⟩)
        rcases List.mem_append.mp hmem with hmem | hmem
        · exact hnot hmem
        · rw [List.mem_singleton.mp hmem] at hbp
          exact hp (hbp ▸ List.prefix_refl _)

theorem Pass.accounted (h : e.Pass doc found) (hd : doc.Sound) (hs : Invocation.schedule found = some (before ++ after))
    (hr : (e.execute before).runOn doc = (.ok (), now)) : Accounted e found before now := by
  induction before using List.reverseRecOn generalizing after now with
  | nil =>
    cases hr
    exact h.accounted_start
  | append_singleton before a ih =>
    rw [List.append_assoc, List.singleton_append] at hs
    obtain ⟨d1, h1, ha⟩ := execute_snoc.mp hr
    have hmem : a ∈ found := (Invocation.mem_schedule hs).mp (by simp)
    have hduring := h.during hd hs h1
    obtain ⟨target, v, key, written, ms, -, -, hready⟩ := h.ready hmem (h.clear hs) hduring
    obtain ⟨slot, hout, hleft⟩ := hready.applied h.suffix hduring.sound hduring.ordered ha
    have hverb : a.directive = v := by rw [hready.bound, bind_directive]
    exact accounted_step (ih hs h1) hleft fun hb => outcome_text hout (hverb ▸ hb)

/-! ## The input of an invocation -/

namespace Pass

variable (h : e.Pass doc found)

include h

/-- The input is a member of an object at or above the invocation's own. -/
theorem input_eq (hi : i ∈ found) : ∃ q k ps, i.input = q ++ [.key k] ∧ q <+: i.host ∧
    Locator.walk q doc = some (.obj ps) := by
  obtain ⟨host, target, v, key, written, hv, ht, rfl⟩ := h.toScanned.mem_iff.mp hi
  have hw := (hv.walk h.ordered).1
  obtain ⟨members, rfl, -⟩ := host?_eq_some.mp ht
  rw [bind_input, bind_host, bind_argumentSibling?]
  split
  · cases hs : e.argumentSibling? doc host with
    | none => exact ⟨host, key, members, rfl, List.prefix_refl _, hw⟩
    | some s =>
      obtain ⟨p, k, rfl, rfl, -⟩ := argumentSibling?_eq_some.mp hs
      obtain ⟨ps, hps⟩ := Locator.walk_parent hw
      exact ⟨p, _, ps, rfl, List.prefix_append .., hps⟩
  · exact ⟨host, key, members, rfl, List.prefix_refl _, hw⟩

/-- What stands in the input of an invocation has had its turn before. -/
theorem inside_before (hs : Invocation.schedule found = some (before ++ i :: after)) (ha : a ∈ found)
    (hin : i.input <+: a.host) : a ∈ before := by
  have hmem : a ∈ before ++ i :: after := (Invocation.mem_schedule hs).mpr ha
  have hi : i ∈ found := (Invocation.mem_schedule hs).mp (by simp)
  rcases List.mem_append.mp hmem with hb | hlater
  · exact hb
  · exfalso
    by_cases hown : i.input = i.branch
    · obtain ⟨key, hbranch⟩ := h.toScanned.branch_eq hi
      have hlen := hin.length_le
      rw [hown, hbranch, List.length_append, List.length_singleton] at hlen
      have hdepth : a.depth ≤ i.depth := by
        rcases List.mem_cons.mp hlater with rfl | hafter
        · exact Nat.le_refl _
        · have hfall := h.schedule_falling hs
          exact List.rel_of_pairwise_cons (List.pairwise_append.mp hfall).2.1 hafter
      rw [h.toScanned.depth_eq ha, h.toScanned.depth_eq hi] at hdepth
      omega
    · have hsib : i.argumentSibling? = some i.input := if_neg hown
      have hc := (h.consumes_iff hi ha).mpr ⟨_, hsib, hin⟩
      rcases List.mem_cons.mp hlater with rfl | hafter
      · rw [h.toScanned.irreflexive hi] at hc
        cases hc
      · have hset := Invocation.schedule_settled hs
        rw [List.rel_of_pairwise_cons (List.pairwise_append.mp hset).2.1 hafter] at hc
        cases hc

/-- Nobody but the invocation itself takes its input. -/
theorem input_not_taken (hs : Invocation.schedule found = some (before ++ i :: after)) (ha : a ∈ before) :
    a.argumentSibling? ≠ some i.input := by
  intro hsib
  have hmem : ∀ b ∈ before ++ i :: after, b ∈ found := fun b hb => (Invocation.mem_schedule hs).mp hb
  have haf := hmem a (List.mem_append_left _ ha)
  have hi := hmem i (by simp)
  by_cases hown : i.input = i.branch
  · exact h.apart a haf i hi (hown ▸ hsib)
  · obtain ⟨p, k, hp, heq⟩ := h.toScanned.sibling_eq hi (s := i.input) (if_neg hown)
    obtain ⟨q, l, hq, heq'⟩ := h.toScanned.sibling_eq haf hsib
    rw [heq] at heq'
    obtain ⟨rfl, hkey⟩ := List.append_inj' heq' rfl
    have hkl : k = l := siblingKey_inj (e := e) (by simpa [siblingKey] using hkey)
    subst hkl
    exact (h.course hs).ne_of_before rfl ha (h.toScanned.eq_of_host haf hi (hq.trans hp.symm))

/-- An input that is an arm of a choice is still as it was written. -/
theorem arm_untouched (hd : doc.Sound) (hs : Invocation.schedule found = some (before ++ i :: after))
    (hr : (e.execute before).runOn doc = (.ok (), now)) (ha : a ∈ found) (hv : a.directive.verb = .choose) {arm : String}
    (harm : isArm arm = true) (hinput : i.input = a.host ++ [.key arm]) :
    Locator.walk i.input now = Locator.walk i.input doc := by
  have hmem : ∀ b ∈ before ++ i :: after, b ∈ found := fun b hb => (Invocation.mem_schedule hs).mp hb
  have hclear := h.clear hs
  obtain ⟨q, k, -, hq, hqi, -⟩ := h.input_eq (hmem i (by simp))
  have hnot : ∀ b ∈ before, ¬ i.input <+: b.host := by
    intro b hb
    obtain ⟨host, target, v, key, written, hvis, -, hbound⟩ := h.toScanned.mem_iff.mp (hmem b (List.mem_append_left _ hb))
    have hhost : b.host = host := by rw [hbound, bind_host]
    rw [hinput]
    exact h.toScanned.arm_not_above ha hv harm (hhost ▸ hvis)
  have hbeside : Clear before i.input := by
    rw [hq]
    refine hclear.child hqi (fun b hb heq => hnot b hb ?_) fun b hb => ?_
    · rw [hq, heq]
    · rw [← hq]
      exact h.input_not_taken hs hb
  exact (h.course hs).untouched hd rfl hr fun b hb => ⟨hbeside.above b hb, hnot b hb, hbeside.taken b hb⟩

/-- A shaped key in the input was brought there by the pass, or the input is an arm that was passed over. -/
theorem shaped_input_iff (hd : doc.Sound) (hs : Invocation.schedule found = some (before ++ i :: after))
    (hr : (e.execute before).runOn doc = (.ok (), now)) (hnode : Locator.resolve i.input now = some node) :
    e.shaped node = true ↔
      (∃ a ∈ before, Brings a ∧ i.input <+: a.host ∧ ∃ n, Locator.resolve a.host now = some n ∧ e.shaped n = true) ∨
      ∃ a ∈ found, a.directive.verb = .choose ∧ ∃ arm, isArm arm = true ∧ i.input = a.host ++ [.key arm] ∧
        ∃ n, Locator.resolve i.input doc = some n ∧ e.shaped n = true := by
  have hi : i ∈ found := (Invocation.mem_schedule hs).mp (by simp)
  have hclear := h.clear hs
  have hduring := h.during hd hs hr
  obtain ⟨q, k, ps, hinput, hq, hps⟩ := h.input_eq hi
  obtain ⟨_, hq', hk⟩ := (hduring.retains q (hclear.of_prefix hq)).there _ hps
  obtain ⟨ps', rfl⟩ := hk.obj
  have hwalk : Locator.walk i.input now = some node := by
    rw [hinput] at hnode ⊢
    rwa [← Locator.resolve_member hq']
  constructor
  · intro hshaped
    obtain ⟨r, ms, hw, hms⟩ := walk_of_shaped node (Locator.resolve_ordered hduring.ordered hnode) hshaped
    have hat : Locator.walk (i.input ++ r) now = some (.obj ms) := by
      rw [Locator.walk_append, hwalk]
      exact hw
    have hr' : i.input <+: i.input ++ r := List.prefix_append ..
    have harm_case : ∀ a ∈ found, a.directive.verb = .choose → ∀ arm, isArm arm = true → i.input = a.host ++ [.key arm] →
        ∃ n, Locator.resolve i.input doc = some n ∧ e.shaped n = true := by
      intro a ha hverb arm harm heq
      rw [h.arm_untouched hd hs hr ha hverb harm heq] at hwalk
      exact ⟨node, Locator.resolve_of_walk hwalk, hshaped⟩
    rcases h.accounted hd hs hr _ _ hat hms with ⟨a, ha, hb, hp⟩ | ⟨a, ha, hverb, arm, harm, hp⟩ | ⟨a, ha, hnot, hp⟩
    · -- nothing done before stands above the input
      have hin : i.input <+: a.host := by
        rcases List.prefix_or_prefix_of_prefix hp hr' with hle | hle
        · rw [hinput] at hle ⊢
          rcases List.prefix_concat_iff.mp hle with heq | hle
          · rw [heq]
          · exact absurd (hle.trans hq) (hclear.above a ha)
        · exact hle
      exact .inl ⟨a, ha, hb, hin, shaped_above hp hat hms⟩
    · rcases List.prefix_or_prefix_of_prefix hp hr' with hle | hle
      · rw [hinput] at hle
        rcases List.prefix_concat_iff.mp hle with heq | hle
        · have hin := hinput.trans heq.symm
          exact .inr ⟨a, ha, hverb, arm, harm, hin, harm_case a ha hverb arm harm hin⟩
        · obtain ⟨host, target, v, key, written, hv, -, hbound⟩ := h.toScanned.mem_iff.mp hi
          have hhost : i.host = host := by rw [hbound, bind_host]
          exact absurd (hle.trans hq) (h.toScanned.arm_not_above ha hverb harm (hhost ▸ hv))
      · rcases List.prefix_concat_iff.mp hle with heq | hle
        · exact .inr ⟨a, ha, hverb, arm, harm, heq, harm_case a ha hverb arm harm heq⟩
        · have hpa : a.host <+: i.input ++ r := (List.prefix_append ..).trans hp
          exact .inl ⟨a, h.inside_before hs ha hle, .inl hverb, hle, shaped_above hpa hat hms⟩
    · exact absurd (h.inside_before hs ha (hp ▸ hr')) hnot
  · intro hcases
    rcases hcases with ⟨a, -, -, ⟨r, hr'⟩, n, hn, hshaped⟩ | ⟨a, ha, hverb, arm, harm, heq, n, hn, hshaped⟩
    · rw [← hr', Locator.resolve_append, hnode] at hn
      exact shaped_of_resolve hn hshaped
    · rw [h.arm_untouched hd hs hr ha hverb harm heq] at hwalk
      rw [Locator.resolve_of_walk hwalk] at hn
      cases hn
      exact hshaped

end Pass

/-! ## Pass after pass -/

/-- The documents between the passes of an expansion. -/
inductive Passed (e : Engine) (doc : Json) : Json → Prop
  | start : Passed e doc doc
  | pass {d d' : Json} {count : Nat} : Passed e doc d → e.runPass.runOn d = (.ok count, d') → Passed e doc d'

/-- The turn of `i` in a pass that starts from `d`, finds `found` and has carried out `before`. -/
structure Turn (e : Engine) (doc d : Json) (found before : List Invocation) (i : Invocation) (now : Json) : Prop where
  passed : e.Passed doc d
  scanned : e.scan d = .ok found
  scheduled : ∃ after, Invocation.schedule found = some (before ++ i :: after)
  ran : (e.execute before).runOn d = (.ok (), now)

theorem passed_during (hvalid : e.config.fault? = none) (hd : doc.Sound) (ho : doc.Ordered)
    (hapart : ∀ d, e.Passed doc d → ∀ found, e.scan d = .ok found → Apart found) (h : e.Passed doc d) :
    d.Sound ∧ d.Ordered := by
  induction h with
  | start => exact ⟨hd, ho⟩
  | @pass d d' count hp hrun ih =>
    obtain ⟨found, order, hscan, hs, hexec, -⟩ := runPass_ok.mp hrun
    have hpass : e.Pass d found := ⟨ih.2, suffix_of_fault? hvalid, hscan, hapart d hp found hscan⟩
    have hduring := (hpass.course hs).during ih.1 (List.append_nil _).symm hexec
    exact ⟨hduring.sound, hduring.ordered⟩

/-- What a string directive reads, or any other, holds a shaped key exactly if a choice, a look-up or an import carried
    out earlier in the pass stands at or beneath the input and left one there, or the input is an arm of a choice,
    which the scan passed over, and held one then. -/
theorem input_shaped_iff (hvalid : e.config.fault? = none) (hd : doc.Sound) (ho : doc.Ordered)
    (hapart : ∀ d, e.Passed doc d → ∀ found, e.scan d = .ok found → Apart found)
    (ht : e.Turn doc d found before i now) (hnode : Locator.resolve i.input now = some node) :
    e.shaped node = true ↔
      (∃ a ∈ before, Brings a ∧ i.input <+: a.host ∧ ∃ n, Locator.resolve a.host now = some n ∧ e.shaped n = true) ∨
      ∃ a ∈ found, a.directive.verb = .choose ∧ ∃ arm, isArm arm = true ∧ i.input = a.host ++ [.key arm] ∧
        ∃ n, Locator.resolve i.input d = some n ∧ e.shaped n = true := by
  obtain ⟨after, hs⟩ := ht.scheduled
  obtain ⟨hds, hdo⟩ := passed_during hvalid hd ho hapart ht.passed
  have hpass : e.Pass d found := ⟨hdo, suffix_of_fault? hvalid, ht.scanned, hapart d ht.passed found ht.scanned⟩
  exact hpass.shaped_input_iff hds hs ht.ran hnode

/-- A choice in the argument of a string directive; the arm is a look-up. -/
def late : Json := .obj [("a", .obj [("kubegen.String.AsJSON",
  .obj [("kubegen.Null.If", .bool true), ("then", .obj [("kubegen.String.Lookup", .str "p")])])])]

def lateChoice : Invocation :=
  let branch : Locator := [.key "a", .key "kubegen.String.AsJSON", .key "kubegen.Null.If"]
  { directive := ⟨.null, .a, .choose⟩, branch, input := branch }

def lateText : Invocation :=
  let branch : Locator := [.key "a", .key "kubegen.String.AsJSON"]
  { directive := ⟨.string, .d, .asJson⟩, branch, input := branch }

/-- The look-up that the choice puts into the argument is still there when the argument is made a string. -/
theorem input_shaped_late :
    plain.Turn late late [lateText, lateChoice] [lateChoice] lateText
        (.obj [("a", .obj [("kubegen.String.AsJSON", .obj [("kubegen.String.Lookup", .str "p")])])]) ∧
      plain.shaped (.obj [("kubegen.String.Lookup", .str "p")]) = true := by
  have hscan : plain.scan late = .ok [lateText, lateChoice] := by rfl
  have hs : Invocation.schedule [lateText, lateChoice] = some ([lateChoice] ++ lateText :: []) := by decide +kernel
  have ht : plain.Turn late late [lateText, lateChoice] [lateChoice] lateText
      (.obj [("a", .obj [("kubegen.String.AsJSON", .obj [("kubegen.String.Lookup", .str "p")])])]) :=
    ⟨.start, hscan, ⟨[], hs⟩, by rfl⟩
  refine ⟨ht, (input_shaped_iff (by decide +kernel) (by decide) (by decide) (fun _ _ _ => plain_apart) ht rfl).mpr ?_⟩
  exact .inl ⟨lateChoice, by simp, .inl rfl, by decide, _, rfl, by decide +kernel⟩

end DocExpand.Engine
