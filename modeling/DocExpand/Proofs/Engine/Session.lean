/-
  DocExpand.Proofs.Engine.Session — documents stay sound whatever is done to them.

  A session is any program over the public operations: reading, `put`, `delete`,
  replacing the document, applying, executing, passes and expansion under any engine,
  the verbs run by themselves, imports combined by hand, type-checked and atomic blocks
  of sessions, and going on after a failure. No session takes a sound document to one
  that is not (`session_safe`); so its bytes are accepted again (`session_reopens`).
-/

import DocExpand.Proofs.Engine.Deeds

namespace DocExpand

open Edit

variable {α β : Type}

/-! ## The engine's edits are safe -/

namespace Engine

theorem safe_load (e : Engine) (branch : Locator) (produces : Kind) (payload : ByteArray) :
    Safe (e.load branch produces payload) := by
  unfold load
  dsimp only
  split
  · exact safe_throw _
  · refine safe_get.bind fun d => (safe_lift _).bind fun members => ?_
    split
    · refine (safe_lift _).bind fun combined => (safe_delete branch).bind fun _ => ?_
      split
      · exact safe_put _ _
      · exact safe_put _ _
    · exact safe_throw _

/-- What a verb does is safe, because each of the four deeds is. -/
theorem safe_act (e : Engine) (i : Invocation) : Safe (e.act i) := by
  intro d hd
  rw [runOn_act]
  cases e.deed i (arm? i d) (Locator.resolve i.input d) with
  | refuse cause => exact safe_throw cause d hd
  | write node => exact safe_put _ _ d hd
  | leave arm =>
    rw [Deed.edit]
    split
    · exact safe_delete _ d hd
    · exact safe_put _ _ d hd
    · exact safe_throw _ d hd
  | load payload => exact (e.safe_load _ _ payload).atomically d hd

theorem safe_removeSibling (i : Invocation) : Safe (removeSibling i) := by
  unfold removeSibling
  cases i.argumentSibling? with
  | none => exact safe_pure _
  | some sibling =>
    refine safe_get.bind fun d => ?_
    split
    · exact safe_delete sibling
    · exact safe_pure _

theorem safe_apply (e : Engine) (i : Invocation) : Safe (e.apply i) :=
  (((e.safe_act i).bind fun _ => safe_removeSibling i).atomically).adapt _

theorem safe_execute (e : Engine) (is : List Invocation) : Safe (e.execute is) := by
  induction is with
  | nil => exact safe_pure _
  | cons i rest ih => exact (e.safe_apply i).bind fun _ => ih

theorem safe_pending (e : Engine) : Safe e.pending := by
  refine safe_get.bind fun _ => (safe_lift _).bind fun found => ?_
  split
  · exact safe_pure _
  · exact safe_throw _

theorem safe_runPass (e : Engine) : Safe e.runPass :=
  e.safe_pending.bind fun ordered => (e.safe_execute ordered).bind fun _ => safe_pure _

theorem safe_expandFrom (e : Engine) (left : Nat) : ∀ done, Safe (e.expandFrom done left) := by
  induction left with
  | zero =>
    intro done
    refine safe_get.bind fun d => (safe_lift _).bind fun found => ?_
    split
    · exact safe_pure done
    · exact safe_throw _
  | succ left ih =>
    intro done
    refine e.safe_runPass.bind fun count => ?_
    split
    · exact safe_pure done
    · exact ih (done + 1)

theorem safe_expand (e : Engine) : Safe e.expand := e.safe_expandFrom _ 0

end Engine

/-! ## Sessions -/

/-- Programs made of the public operations. Every operation may be run under an engine of its own. -/
inductive Session : {α : Type} → Edit α → Prop
  | done {α : Type} (a : α) : Session (pure a)
  | fail {α : Type} (e : Error) : Session (throw e : Edit α)
  | document : Session get
  | next {α β : Type} {x : Edit α} {f : α → Edit β} : Session x → (∀ a, Session (f a)) → Session (x >>= f)
  /-- A failure need not end the program. -/
  | recover {α : Type} {x : Edit α} {h : Error → Edit α} : Session x → (∀ e, Session (h e)) → Session (tryCatch x h)
  | atomically {α : Type} {x : Edit α} : Session x → Session (Edit.atomically x)
  | whenKind {x : Edit Unit} (p : Locator) (expected : Kind) : Session x → Session (Edit.whenKind p expected x)
  | put (p : Locator) (value : NewValue) : Session (Edit.put p value)
  | delete (p : Locator) : Session (Edit.delete p)
  | replaceDocument (doc : Json) : Session (Edit.replaceDocument doc)
  | load (e : Engine) (branch : Locator) (produces : Kind) (payload : ByteArray) :
    Session (e.load branch produces payload)
  /-- A verb by itself, with no wrapping and no argument sibling removed. -/
  | act (e : Engine) (i : Invocation) : Session (e.act i)
  | apply (e : Engine) (i : Invocation) : Session (e.apply i)
  | execute (e : Engine) (is : List Invocation) : Session (e.execute is)
  | runPass (e : Engine) : Session e.runPass
  | expand (e : Engine) : Session e.expand

theorem session_safe {x : Edit α} (h : Session x) : Safe x := by
  induction h with
  | done a => exact safe_pure a
  | fail e => exact safe_throw e
  | document => exact safe_get
  | next _ _ ihx ihf => exact ihx.bind ihf
  | recover _ _ ihx ihh => exact ihx.tryCatch ihh
  | atomically _ ih => exact ih.atomically
  | whenKind p expected _ ih => exact ih.whenKind p expected
  | put p value => exact safe_put p value
  | delete p => exact safe_delete p
  | replaceDocument doc => exact safe_put _ _
  | load e branch produces payload => exact e.safe_load branch produces payload
  | act e i => exact e.safe_act i
  | apply e i => exact e.safe_apply i
  | execute e is => exact e.safe_execute is
  | runPass e => exact e.safe_runPass
  | expand e => exact e.safe_expand

/-! ## Starting -/

theorem accept_ok {doc d : Json} : Engine.accept doc = .ok d ↔ d = doc ∧ doc.Sound := by
  unfold Engine.accept
  rw [runOn_validate]
  constructor
  · intro h
    cases hv : verdict doc with
    | error e =>
      rw [hv] at h
      cases h
    | ok u =>
      rw [hv] at h
      cases h
      exact ⟨rfl, verdict_ok.mp hv⟩
  · rintro ⟨rfl, hs⟩
    rw [verdict_ok.mpr hs]
    rfl

theorem acceptBytes_ok {bytes : ByteArray} {d : Json} :
    Engine.acceptBytes bytes = .ok d ↔ Json.decode bytes = some d ∧ d.Sound := by
  unfold Engine.acceptBytes Value.ofBytes
  cases hb : Json.decode bytes with
  | none => exact ⟨fun h => (nomatch h), fun h => (nomatch h.1)⟩
  | some doc =>
    change Engine.accept doc = .ok d ↔ _
    rw [accept_ok, Option.some.injEq]
    constructor
    · rintro ⟨rfl, hs⟩
      exact ⟨rfl, hs⟩
    · rintro ⟨rfl, hs⟩
      exact ⟨rfl, hs⟩

/-- A document that an engine can be started with, given as a tree or as bytes. -/
def Opened (d : Json) : Prop := (∃ doc, Engine.accept doc = .ok d) ∨ ∃ bytes, Engine.acceptBytes bytes = .ok d

theorem opened_sound {d : Json} (h : Opened d) : d.Sound := by
  rcases h with ⟨doc, h⟩ | ⟨bytes, h⟩
  · obtain ⟨rfl, hs⟩ := accept_ok.mp h
    exact hs
  · exact (acceptBytes_ok.mp h).2

theorem Json.Sound.reread {d : Json} (h : d.Sound) : d.reread.Sound :=
  ⟨by rw [Json.reread_kind]; exact h.container, Nat.le_trans (Json.reread_nesting_le d) h.shallow⟩

/-- The bytes of a sound document open it again, its numbers as their text reads. -/
theorem acceptBytes_encode {d : Json} (h : d.Sound) : Engine.acceptBytes d.encode = .ok d.reread :=
  acceptBytes_ok.mpr ⟨by rw [Json.decode_encode, if_pos h.shallow], h.reread⟩

/-- After any session with a document that was opened, its root is an array or object, its
    text decodes, and its bytes open again. -/
theorem session_reopens {x : Edit α} {d : Json} (hd : Opened d) (hx : Session x) :
    (x.runOn d).2.kind.isContainer = true ∧ (x.runOn d).2.nesting ≤ 127 ∧
      (Json.decode (x.runOn d).2.encode).isSome ∧ ∃ again, Engine.acceptBytes (x.runOn d).2.encode = .ok again := by
  have hs := session_safe hx d (opened_sound hd)
  refine ⟨hs.container, hs.shallow, ?_, _, acceptBytes_encode hs⟩
  rw [Json.decode_encode_isSome, decide_eq_true hs.shallow]

/-- A root that would become a scalar, inside a block that would have deleted the member `a`. -/
theorem session_reopens_scalar :
    Opened (.obj [("a", .null)]) ∧
      Session (Edit.atomically (Edit.delete [.key "a"] >>= fun _ => Edit.replaceDocument .null)) ∧
      ∃ again, Engine.acceptBytes ((Edit.atomically (Edit.delete [.key "a"] >>= fun _ =>
        Edit.replaceDocument .null)).runOn (.obj [("a", .null)])).2.encode = .ok again :=
  have hd : Opened (.obj [("a", .null)]) := .inl ⟨_, accept_ok.mpr ⟨rfl, by decide⟩⟩
  have hx : Session (Edit.atomically (Edit.delete [.key "a"] >>= fun _ => Edit.replaceDocument .null)) :=
    .atomically (.next (.delete _) fun _ => .replaceDocument _)
  ⟨hd, hx, (session_reopens hd hx).2.2.2⟩

end DocExpand
