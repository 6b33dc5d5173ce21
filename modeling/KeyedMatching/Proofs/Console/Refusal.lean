import KeyedMatching.Console.Session
import KeyedMatching.Proofs.Success
import KeyedMatching.Proofs.Text.Returned

/-!
# What a refused line leaves behind

A line that is not carried out has declared holes at most. Nothing of the signature or the settings
is written before the last thing that can go wrong, and no store is kept but that of a match.

* `Session.Gains`: what reading does to a session;
* `Session.Refusing done x`: unless the step `x` has a result that is `done`, the session has only
  gained holes by it; `Session.Growing` says so of any result;
* `Session.refusing_bind`: what comes last may write, if what comes before only reads;
* `Session.execute_refusing`: commands are put together in this way;
* `Session.refused_line`: what a refused line leaves behind.
-/

namespace KeyedMatching.Console

/-- The line has been carried out, and the session goes on. -/
def Reply.IsAnswer : Reply → Prop
  | .silent | .text _ => True
  | .quit | .error _ => False

namespace Session

/-- The second session is the first with further holes, which have no value; names and counters may
be others. -/
structure Gains (s s' : Session) : Prop where
  signature : s'.signature = s.signature
  config : s'.config = s.config
  store : s.store.Gains s'.store

section
variable {s s₁ s' : Session}

theorem Gains.refl (s : Session) : s.Gains s :=
  ⟨rfl, rfl, .refl s.store⟩

theorem Gains.trans (h : s.Gains s₁) (h' : s₁.Gains s') : s.Gains s' :=
  ⟨h'.signature.trans h.signature, h'.config.trans h.config, h.store.trans h'.store⟩

end

/-! ## Steps -/

section
variable {α β : Type}

/-- Unless the step has a result that is `done`, the session has only gained holes by it. -/
def Refusing (done : α → Prop) (x : SessionM α) : Prop :=
  ∀ s, x.Leads s fun r s' => (∀ a, r = .ok a → ¬done a) → s.Gains s'

/-- The session only gains holes by the step, whether it fails or not. -/
abbrev Growing (x : SessionM α) : Prop :=
  Refusing (fun _ => False) x

section
variable {x : SessionM α} {f : α → SessionM β} {done : β → Prop}

theorem refusing_pure {b : β} : Refusing done (pure b) :=
  fun s => ExceptT.leads_pure fun _ => .refl s

theorem refusing_throw {e : ConsoleError} : Refusing done (throw e) :=
  fun s => ExceptT.leads_throw fun _ => .refl s

/-- What follows a step that only reads may be anything that is refusing. -/
theorem refusing_bind (hx : Growing x) (hf : ∀ a, Refusing done (f a)) :
    Refusing done (x >>= f) := by
  intro s
  refine ExceptT.leads_bind (P := fun _ s₁ => s.Gains s₁)
    ((hx s).mono fun _ _ gains => gains fun _ _ => id) (fun _ _ gains _ => gains)
    fun a s₁ gains => ?_
  exact (hf a s₁).mono fun _ _ later refused => gains.trans (later refused)

/-- The session may be written to if nothing can go wrong any more. -/
theorem refusing_modify_pure {g : Session → Session} {b : β} (hb : done b) :
    Refusing done (do modify g; return b) := by
  intro s r s' run refused
  cases run
  exact absurd hb (refused b rfl)

theorem growing_get : Growing get :=
  fun s => ExceptT.leads_get_bind (f := pure) (ExceptT.leads_pure fun _ => .refl s)

theorem growing_modify {g : Session → Session} (h : ∀ s : Session, s.Gains (g s)) :
    Growing (modify g) :=
  fun s => ExceptT.leads_modify fun _ => h s

theorem growing_ofAnswer (o : Option α) : Growing (ofAnswer o) := by
  intro s r s' run _
  cases o with
  | none => cases run
  | some a =>
    cases run
    exact .refl s

end

/-! ## Reading -/

theorem growing_forgetHoles : Growing forgetHoles :=
  growing_modify fun s => ⟨rfl, rfl, .refl s.store⟩

theorem growing_read (text : List Char) : Growing (read text) := by
  intro s
  have gains : s.Gains
      { s with
        reader := (s.reader.read s.store text).2.1
        store := (s.reader.read s.store text).2.2 } :=
    ⟨rfl, rfl, (s.reader.read_returns s.store text).1⟩
  refine ExceptT.leads_get_bind (ExceptT.leads_bind (P := fun _ s' => s.Gains s')
    (ExceptT.leads_set gains) (fun _ _ gains _ => gains) fun _ s' gains => ?_)
  split
  · exact ExceptT.leads_pure fun _ => gains
  · exact ExceptT.leads_throw fun _ => gains

theorem growing_readOptional (text? : Option (List Char)) : Growing (readOptional text?) := by
  cases text? with
  | none => exact refusing_pure
  | some text => exact refusing_bind (growing_read text) fun _ => refusing_pure

theorem growing_readRules (rs : List (Option RuleText)) : Growing (readRules rs) := by
  induction rs with
  | nil => exact refusing_pure
  | cons r rs ih =>
    refine refusing_bind growing_forgetHoles fun _ => ?_
    cases r with
    | none => exact refusing_throw
    | some r =>
      refine refusing_bind (growing_read r.lhs) fun lhs => ?_
      refine refusing_bind (growing_read r.rhs) fun rhs => ?_
      refine refusing_bind (growing_readOptional r.proof?) fun proof? => ?_
      exact refusing_bind ih fun rules => refusing_pure

/-! ## Commands -/

theorem growing_recordCounters (rejections : Nat) : Growing (recordCounters rejections) :=
  growing_modify fun s => ⟨rfl, rfl, .refl s.store⟩

theorem refusing_runFill (occ : Occurrences) (pattern target : List Char) :
    Refusing (fun _ => True) (runFill occ pattern target) := by
  refine refusing_bind growing_forgetHoles fun _ => ?_
  refine refusing_bind (growing_read target) fun target => ?_
  refine refusing_bind growing_get fun before => ?_
  refine refusing_bind (growing_read pattern) fun pattern => ?_
  refine refusing_bind growing_get fun s => ?_
  refine refusing_bind (growing_ofAnswer _) fun report => ?_
  refine refusing_bind (growing_recordCounters _) fun _ => ?_
  split
  · exact refusing_throw
  · exact refusing_modify_pure trivial

theorem refusing_runRules (occ : Occurrences) (rules : List (Option RuleText))
    (target : List Char) : Refusing (fun _ => True) (runRules occ rules target) := by
  refine refusing_bind growing_forgetHoles fun _ => ?_
  refine refusing_bind (growing_read target) fun target => ?_
  refine refusing_bind growing_get fun before => ?_
  refine refusing_bind (growing_readRules rules) fun rules => ?_
  refine refusing_bind growing_get fun s => ?_
  refine refusing_bind (growing_ofAnswer _) fun report => ?_
  refine refusing_bind (growing_recordCounters _) fun _ => ?_
  split
  · exact refusing_throw
  · exact refusing_modify_pure trivial

/-- A step that is refusing stays so if a text is made of its result. -/
theorem Refusing.text {x : SessionM String} (hx : Refusing (fun _ => True) x) :
    Refusing Reply.IsAnswer (do return .text (← x)) := by
  intro s
  refine ExceptT.leads_bind (hx s) (fun e s' gains refused => gains (by simp)) fun text s' _ => ?_
  exact ExceptT.leads_pure fun refused => absurd trivial (refused _ rfl)

/-- A command that is not carried out, or ends the session, has only declared holes. -/
theorem execute_refusing (command : Command) :
    Refusing Reply.IsAnswer (execute command) := by
  cases command with
  | nothing => exact refusing_pure
  | help => exact refusing_pure
  | quit => exact refusing_pure
  | metrics =>
    refine refusing_bind growing_get fun s => ?_
    split <;> exact refusing_pure
  | declare name type =>
    exact refusing_bind (growing_read type) fun _ => refusing_modify_pure trivial
  | define name type? body =>
    refine refusing_bind (growing_readOptional type?) fun type? => ?_
    exact refusing_bind (growing_read body) fun _ => refusing_modify_pure trivial
  | projection name params => exact refusing_modify_pure trivial
  | canonical proj head inst extra =>
    exact refusing_bind (growing_read inst) fun _ => refusing_modify_pure trivial
  | inst name type =>
    exact refusing_bind (growing_read type) fun _ => refusing_modify_pure trivial
  | fill occ pattern target => exact (refusing_runFill occ pattern target).text
  | applyRules occ rules target => exact (refusing_runRules occ rules target).text
  | configure json =>
    have shown : Refusing Reply.IsAnswer
        (do return .text (← get).config.toJson : SessionM Reply) :=
      refusing_bind growing_get fun _ => refusing_pure
    dsimp only [execute]
    split
    · split
      · intro s r s' run refused
        cases run
        exact absurd trivial (refused _ rfl)
      · exact refusing_bind refusing_throw fun _ => shown
    · exact shown

end

/-- A line that is refused, or ends the session, leaves the signature and the settings as they were.
The store is the same but for holes at its end that have been declared and have no value: no hole
has changed, and neither have the version, what is put off and what is frozen. -/
theorem refused_line {s s' : Session} {line : List Char} {reply : Reply}
    (h : s.process? line = some (reply, s')) (refused : reply = .quit ∨ ∃ e, reply = .error e) :
    s'.signature = s.signature ∧ s'.config = s.config ∧
      ∃ new : List Hole, (∀ d ∈ new, d.value? = none) ∧
        s'.store = { s.store with slots := s.store.slots ++ new.map some } := by
  have gains : s.Gains s' := by
    unfold process? at h
    split at h
    · cases h
      exact .refl s
    · next command _ =>
      obtain ⟨⟨result, s₁⟩, run, h⟩ := Option.bind_eq_some_iff.1 h
      have kept := execute_refusing command s result s₁ run
      cases result with
      | error e =>
        cases h
        exact kept fun _ no => by cases no
      | ok r =>
        cases h
        refine kept fun r same answer => ?_
        cases same
        obtain rfl | ⟨e, rfl⟩ := refused <;> exact answer
  exact ⟨gains.signature, gains.config, gains.store⟩

/-- The second of two rules has the wrong shape, when the hole of the first is declared: the hole
stays, and the hole of the line before keeps its value. -/
theorem refused_line_rule :
    ∃ s s' e, (({ limit := 9 } : Session).process? "match (f ?x) in (f a)".toList).map (·.2) =
        some s ∧
      s.process? "rewrite (f ?z) = ?z | (g ?w) in (f b)".toList = some (.error e, s') ∧
      s'.store.slots.map (·.map fun d => d.value?) = [some (some (.const "a")), none, some none] ∧
      s'.signature = s.signature ∧ s'.config = s.config ∧
      ∃ new : List Hole, (∀ d ∈ new, d.value? = none) ∧
        s'.store = { s.store with slots := s.store.slots ++ new.map some } := by
  have run : ((({ limit := 9 } : Session).process? "match (f ?x) in (f a)".toList).bind
      fun first => (first.2.process? "rewrite (f ?z) = ?z | (g ?w) in (f b)".toList).map
        fun second => (second.1, second.2.store.slots.map (·.map fun d => d.value?))) =
      some (.error (.usage .applyRules), [some (some (.const "a")), none, some none]) := by
    decide +kernel
  obtain ⟨⟨reply, s⟩, first, run⟩ := Option.bind_eq_some_iff.1 run
  obtain ⟨⟨reply', s'⟩, second, same⟩ := Option.map_eq_some_iff.1 run
  obtain ⟨rfl, slots⟩ := Prod.mk.inj same
  exact ⟨s, s', _, by rw [first]; rfl, second, slots, refused_line second (.inr ⟨_, rfl⟩)⟩

end Session

end KeyedMatching.Console
