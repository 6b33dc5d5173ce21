import KeyedMatching.Console.Session
import KeyedMatching.Proofs.Console.Reading
import KeyedMatching.Proofs.Matching.Commit

/-!
# What holds of a session after every line

* `Session.Orderly`: the store is orderly, and the signature uses declared holes with their arities;
* `Session.Enlarges`: what reading terms does to a session;
* `execute_orderly`: a command, carried out or not, leaves an orderly session orderly;
* `orderly_after`: so do any lines.
-/

namespace KeyedMatching

/-! ## The store that is committed -/

section
variable {cx : Context} {before s : Store} {occ : Occurrences} {target : Term} {n : Nat}

theorem orderly_of_fill? {pattern : Term} {progress : Progress} {r : Filled}
    (orderly : before.Orderly) (grown : before.Enlarges s)
    (signature : cx.signature.Over before.Declares) (htarget : target.Over before.Declares)
    (isOver : pattern.Over s.Declares)
    (h : fill? cx (.standard cx) s before.checkpoint pattern occ target progress =
      some ⟨.ok r, n⟩) :
    r.store.Orderly ∧ ∀ k n, s.Declares k n → r.store.Declares k n := by
  obtain ⟨found, searched, _, _, _, store⟩ := searched_of_fill? h
  rw [store]
  exact orderly_of_searched orderly grown signature htarget (by simpa using isOver) searched

theorem orderly_of_applyRules? {rules : List Rule} {r : Applied}
    (orderly : before.Orderly) (grown : before.Enlarges s)
    (signature : cx.signature.Over before.Declares) (htarget : target.Over before.Declares)
    (isOver : ∀ rule ∈ rules, rule.source.Over s.Declares)
    (h : applyRules? cx (.standard cx) s before.checkpoint rules occ target =
      some ⟨.ok r, n⟩) :
    r.store.Orderly ∧ ∀ k n, s.Declares k n → r.store.Declares k n := by
  obtain ⟨found, _, searched, _, _, _, _, _, store, _⟩ := searched_of_applyRules? h
  rw [store]
  exact orderly_of_searched orderly grown signature htarget (List.forall_mem_map.2 isOver) searched

end

namespace Console

namespace Session

/-! ## Sessions -/

/-- The store of the session is orderly, and every hole in a type, a body, a canonical form or an
instance is declared, with the arity that the instance of the hole has. -/
structure Orderly (s : Session) : Prop where
  store : s.store.Orderly
  signature : s.signature.Over s.store.Declares
  typed : ∀ c d a, s.signature.definition? c = some d → d.type? = some a →
    a.Over s.store.Declares

/-- The second session is the first after some terms were read. -/
structure Enlarges (s s' : Session) : Prop where
  store : s.store.Enlarges s'.store
  signature : s'.signature = s.signature

section
variable {s s₁ s' : Session}

theorem Enlarges.refl (s : Session) : s.Enlarges s :=
  ⟨.refl s.store, rfl⟩

theorem Enlarges.trans (h : s.Enlarges s₁) (h' : s₁.Enlarges s') : s.Enlarges s' :=
  ⟨h.store.trans h'.store, h'.signature.trans h.signature⟩

theorem Enlarges.over (h : s.Enlarges s') {t : Term} (ht : t.Over s.store.Declares) :
    t.Over s'.store.Declares :=
  ht.mono fun _ _ => h.store.declares

/-- A session stays orderly if its store does, with all holes, and the signature is the same. -/
theorem Orderly.of_store (orderly : s.Orderly) (store : s'.store.Orderly)
    (declares : ∀ k n, s.store.Declares k n → s'.store.Declares k n)
    (same : s'.signature = s.signature) : s'.Orderly := by
  refine ⟨store, ?_, fun c d a hd ha => ?_⟩
  · rw [same]
    exact orderly.signature.mono declares
  · rw [same] at hd
    exact (orderly.typed c d a hd ha).mono declares

theorem Orderly.enlarge (orderly : s.Orderly) (h : s.Enlarges s') : s'.Orderly :=
  orderly.of_store (orderly.store.enlarge h.store) (fun _ _ => h.store.declares) h.signature

/-- Without new definitions only the signature is to be looked at. -/
theorem Orderly.modifySignature (orderly : s.Orderly) {g : Signature}
    (isOver : g.Over s.store.Declares) (same : g.definitions = s.signature.definitions) :
    ({ s with signature := g } : Session).Orderly := by
  refine ⟨orderly.store, isOver, fun c d a hd ha => orderly.typed c d a ?_ ha⟩
  rw [Signature.definition?, ← same]
  exact hd

theorem Orderly.define (orderly : s.Orderly) {c : String} {body : Term} {type? : Option Term}
    (hbody : body.Over s.store.Declares)
    (htype : ∀ a, type? = some a → a.Over s.store.Declares) :
    ({ s with signature := s.signature.define c body type? } : Session).Orderly := by
  have found {e : String} {d : Definition}
      (hd : (s.signature.define c body type?).definition? e = some d) :
      d = ⟨body, type?⟩ ∨ s.signature.definition? e = some d := by
    have known : (s.signature.define c body type?).definitions =
        (c, ⟨body, type?⟩) :: s.signature.definitions := by
      cases type? <;> rfl
    rw [Signature.definition?, known, List.lookup_cons] at hd
    split at hd
    · exact .inl (Option.some.inj hd).symm
    · exact .inr hd
  have isOver : (s.signature.define c body type?).Over s.store.Declares := by
    cases type? with
    | none => exact orderly.signature.define hbody
    | some a =>
      have declared := orderly.signature.declare (c := c) (htype a rfl)
      refine ⟨declared.types, fun e d hd => ?_, declared.canonicals, declared.instances⟩
      rcases found hd with rfl | old
      · exact hbody
      · exact orderly.signature.definitions e d old
  refine ⟨orderly.store, isOver, fun e d a hd ha => ?_⟩
  rcases found hd with rfl | old
  · exact htype a ha
  · exact orderly.typed e d a old ha

end

/-! ## Reading -/

section
variable {s : Session}

theorem read_leads (s : Session) (text : List Char) :
    (read text).Leads s fun r s' => s.Enlarges s' ∧ ∀ t, r = .ok t → t.Over s'.store.Declares := by
  obtain ⟨grown, known⟩ := s.reader.read_enlarges s.store text
  refine ExceptT.leads_get_bind (ExceptT.leads_bind (ExceptT.leads_set (R := fun _ s' =>
    s.Enlarges s' ∧ s'.store = (s.reader.read s.store text).2.2) ⟨⟨grown, rfl⟩, rfl⟩)
    (fun e s' h => ⟨h.1, by simp⟩) fun _ s' h => ?_)
  obtain ⟨enlarged, store⟩ := h
  split
  · next t ht =>
    refine ExceptT.leads_pure ⟨enlarged, fun u hu => ?_⟩
    cases hu
    rw [store]
    exact known t ht
  · exact ExceptT.leads_throw ⟨enlarged, by simp⟩

theorem forgetHoles_leads (s : Session) :
    forgetHoles.Leads s fun _ s' => s.Enlarges s' :=
  ExceptT.leads_modify ⟨.refl s.store, rfl⟩

theorem readOptional_leads (s : Session) (text? : Option (List Char)) :
    (readOptional text?).Leads s fun r s' =>
      s.Enlarges s' ∧ ∀ t, r = .ok (some t) → t.Over s'.store.Declares := by
  cases text? with
  | none => exact ExceptT.leads_pure ⟨.refl s, by simp⟩
  | some text =>
    refine ExceptT.leads_bind (read_leads s text) (fun e s' h => ⟨h.1, by simp⟩) fun t s' h => ?_
    refine ExceptT.leads_pure ⟨h.1, fun u hu => ?_⟩
    cases hu
    exact h.2 t rfl

theorem readRules_leads (s : Session) (rs : List (Option RuleText)) :
    (readRules rs).Leads s fun r s' => s.Enlarges s' ∧
      ∀ rules, r = .ok rules → ∀ rule ∈ rules, rule.source.Over s'.store.Declares := by
  induction rs generalizing s with
  | nil => exact ExceptT.leads_pure ⟨.refl s, fun rules h => by cases h; simp⟩
  | cons r rs ih =>
    refine ExceptT.leads_bind (forgetHoles_leads s) (fun e s' h => ⟨h, by simp⟩)
      fun _ s₁ first => ?_
    cases r with
    | none => exact ExceptT.leads_throw ⟨first, by simp⟩
    | some r =>
      refine ExceptT.leads_bind (read_leads s₁ r.lhs)
        (fun e s' h => ⟨first.trans h.1, by simp⟩) fun lhs s₂ h₂ => ?_
      refine ExceptT.leads_bind (read_leads s₂ r.rhs)
        (fun e s' h => ⟨first.trans (h₂.1.trans h.1), by simp⟩) fun rhs s₃ h₃ => ?_
      refine ExceptT.leads_bind (readOptional_leads s₃ r.proof?)
        (fun e s' h => ⟨first.trans (h₂.1.trans (h₃.1.trans h.1)), by simp⟩) fun proof? s₄ h₄ => ?_
      have grown := first.trans (h₂.1.trans (h₃.1.trans h₄.1))
      refine ExceptT.leads_bind (ih s₄) (fun e s' h => ⟨grown.trans h.1, by simp⟩)
        fun rules s₅ h₅ => ?_
      refine ExceptT.leads_pure ⟨grown.trans h₅.1, fun rules' h => ?_⟩
      cases h
      refine List.forall_mem_cons.2 ⟨?_, h₅.2 rules rfl⟩
      have later := h₄.1.trans h₅.1
      cases hd : r.direction with
      | leftToRight => exact (h₃.1.trans later).over (h₂.2 lhs rfl)
      | rightToLeft => exact later.over (h₃.2 rhs rfl)

/-! ## Commands -/

/-- What follows a search may rely on its report and on the session, but for the counters. -/
theorem report_leads {α β : Type} {search : Option (Report α)} {f : Report α → SessionM β}
    {R : Except ConsoleError β → Session → Prop}
    (h : ∀ report s₁, search = some report → s.Enlarges s₁ → (f report).Leads s₁ R) :
    (do
      let report ← ofAnswer search
      recordCounters report.rejections
      f report : SessionM β).Leads s R := by
  refine ExceptT.leads_lift_bind fun report found => ?_
  refine ExceptT.leads_bind (P := fun r s₁ => r = .ok ⟨⟩ ∧ s.Enlarges s₁)
    (ExceptT.leads_modify ⟨rfl, .refl s.store, rfl⟩) (fun e s₁ no => by cases no.1)
    fun _ s₁ h₁ => ?_
  exact h report s₁ found h₁.2

/-- Committing an orderly store that has all holes leaves the session orderly. -/
theorem commit_orderly {s₁ : Session} (orderly : s.Orderly) (grown : s.Enlarges s₁) {store : Store}
    (committed : store.Orderly ∧ ∀ k n, s.store.Declares k n → store.Declares k n)
    (text : String) :
    (do
      commit store
      return text : SessionM String).Leads s₁ fun _ s' => s'.Orderly := by
  refine ExceptT.leads_bind (ExceptT.leads_modify (R := fun _ s' => s'.Orderly) ?_)
    (fun _ _ h => h) fun _ s' h => ExceptT.leads_pure h
  exact orderly.of_store committed.1 committed.2 grown.signature

theorem runFill_orderly (orderly : s.Orderly) (occ : Occurrences) (pattern target : List Char) :
    (runFill occ pattern target).Leads s fun _ s' => s'.Orderly := by
  refine ExceptT.leads_bind (forgetHoles_leads s) (fun e s' h => orderly.enlarge h)
    fun _ s₁ h₁ => ?_
  refine ExceptT.leads_bind (read_leads s₁ target)
    (fun e s' h => (orderly.enlarge h₁).enlarge h.1) fun target s₂ h₂ => ?_
  have before := (orderly.enlarge h₁).enlarge h₂.1
  refine ExceptT.leads_get_bind ?_
  refine ExceptT.leads_bind (read_leads s₂ pattern)
    (fun e s' h => before.enlarge h.1) fun pattern s₃ h₃ => ?_
  refine ExceptT.leads_get_bind ?_
  have signature : s₃.context.signature.Over s₂.store.Declares := by
    rw [context, h₃.1.signature]
    exact before.signature
  have after := before.enlarge h₃.1
  refine report_leads fun report s₄ found grown => ?_
  split
  · exact ExceptT.leads_throw (after.enlarge grown)
  · next r hr =>
    obtain ⟨result, rejections⟩ := report
    cases hr
    have committed := orderly_of_fill? before.store h₃.1.store signature (h₂.2 target rfl)
      (h₃.2 pattern rfl) found
    exact commit_orderly after grown committed _

theorem runRules_orderly (orderly : s.Orderly) (occ : Occurrences)
    (rules : List (Option RuleText)) (target : List Char) :
    (runRules occ rules target).Leads s fun _ s' => s'.Orderly := by
  refine ExceptT.leads_bind (forgetHoles_leads s) (fun e s' h => orderly.enlarge h)
    fun _ s₁ h₁ => ?_
  refine ExceptT.leads_bind (read_leads s₁ target)
    (fun e s' h => (orderly.enlarge h₁).enlarge h.1) fun target s₂ h₂ => ?_
  have before := (orderly.enlarge h₁).enlarge h₂.1
  refine ExceptT.leads_get_bind ?_
  refine ExceptT.leads_bind (readRules_leads s₂ rules)
    (fun e s' h => before.enlarge h.1) fun rules s₃ h₃ => ?_
  refine ExceptT.leads_get_bind ?_
  have signature : s₃.context.signature.Over s₂.store.Declares := by
    rw [context, h₃.1.signature]
    exact before.signature
  have after := before.enlarge h₃.1
  refine report_leads fun report s₄ found grown => ?_
  split
  · exact ExceptT.leads_throw (after.enlarge grown)
  · next r hr =>
    obtain ⟨result, rejections⟩ := report
    cases hr
    have committed := orderly_of_applyRules? before.store h₃.1.store signature (h₂.2 target rfl)
      (h₃.2 rules rfl) found
    exact commit_orderly after grown committed _

/-- A command leaves an orderly session orderly, whether it is carried out or not. -/
theorem execute_orderly (orderly : s.Orderly) (command : Command) :
    (execute command).Leads s fun _ s' => s'.Orderly := by
  cases command with
  | nothing => exact ExceptT.leads_pure orderly
  | help => exact ExceptT.leads_pure orderly
  | quit => exact ExceptT.leads_pure orderly
  | metrics =>
    refine ExceptT.leads_get_bind ?_
    split <;> exact ExceptT.leads_pure orderly
  | declare name type =>
    refine ExceptT.leads_bind (read_leads s type) (fun e s' h => orderly.enlarge h.1)
      fun type s' h => ?_
    have grown := orderly.enlarge h.1
    refine ExceptT.leads_bind (ExceptT.leads_modify (R := fun _ s' => s'.Orderly) ?_)
      (fun _ _ h => h) fun _ s' h => ExceptT.leads_pure h
    exact grown.modifySignature (grown.signature.declare (h.2 type rfl)) rfl
  | define name type? body =>
    refine ExceptT.leads_bind (readOptional_leads s type?) (fun e s' h => orderly.enlarge h.1)
      fun type? s₁ h₁ => ?_
    have grown₁ := orderly.enlarge h₁.1
    refine ExceptT.leads_bind (read_leads s₁ body) (fun e s' h => grown₁.enlarge h.1)
      fun body s₂ h₂ => ?_
    have grown₂ := grown₁.enlarge h₂.1
    refine ExceptT.leads_bind (ExceptT.leads_modify (R := fun _ s' => s'.Orderly) ?_)
      (fun _ _ h => h) fun _ s' h => ExceptT.leads_pure h
    exact grown₂.define (h₂.2 body rfl) fun a ha => h₂.1.over (h₁.2 a (ha ▸ rfl))
  | projection name params =>
    refine ExceptT.leads_bind (ExceptT.leads_modify (R := fun _ s' => s'.Orderly) ?_)
      (fun _ _ h => h) fun _ s' h => ExceptT.leads_pure h
    exact orderly.modifySignature (orderly.signature.addProjection name params) rfl
  | canonical proj head inst extra =>
    refine ExceptT.leads_bind (read_leads s inst) (fun e s' h => orderly.enlarge h.1)
      fun inst s' h => ?_
    have grown := orderly.enlarge h.1
    refine ExceptT.leads_bind (ExceptT.leads_modify (R := fun _ s' => s'.Orderly) ?_)
      (fun _ _ h => h) fun _ s' h => ExceptT.leads_pure h
    exact grown.modifySignature (grown.signature.addCanonical (h.2 inst rfl)) rfl
  | inst name type =>
    refine ExceptT.leads_bind (read_leads s type) (fun e s' h => orderly.enlarge h.1)
      fun type s' h => ?_
    have grown := orderly.enlarge h.1
    refine ExceptT.leads_bind (ExceptT.leads_modify (R := fun _ s' => s'.Orderly) ?_)
      (fun _ _ h => h) fun _ s' h => ExceptT.leads_pure h
    have known := h.2 type rfl
    exact grown.modifySignature ((grown.signature.declare known).addInstance known) rfl
  | fill occ pattern target =>
    exact ExceptT.leads_bind (runFill_orderly orderly occ pattern target) (fun _ _ h => h)
      fun _ s' h => ExceptT.leads_pure h
  | applyRules occ rules target =>
    exact ExceptT.leads_bind (runRules_orderly orderly occ rules target) (fun _ _ h => h)
      fun _ s' h => ExceptT.leads_pure h
  | configure json =>
    have shown (s₁ : Session) (kept : s₁.Orderly) :
        (do return .text (← get).config.toJson : SessionM Reply).Leads s₁
          fun _ s' => s'.Orderly :=
      ExceptT.leads_get_bind (ExceptT.leads_pure kept)
    dsimp only [execute]
    split
    · split
      · refine ExceptT.leads_bind (ExceptT.leads_modify (R := fun _ s' => s'.Orderly) ?_)
          (fun _ _ h => h) fun _ s' h => shown s' h
        exact ⟨orderly.store, orderly.signature, orderly.typed⟩
      · exact ExceptT.leads_bind (ExceptT.leads_throw (Q := fun _ s' => s'.Orderly) orderly)
          (fun _ _ h => h) fun _ s' h => shown s' h
    · exact shown s orderly

end

/-! ## Lines -/

/-- What a session keeps whatever command of a line is carried out, it keeps with the line. -/
theorem kept_of_process? {R : Session → Prop} {s s' : Session} {line : List Char} {reply : Reply}
    (start : R s)
    (step : ∀ command, Command.ofLine line = .ok command →
      (execute command).Leads s fun _ s₁ => R s₁)
    (h : s.process? line = some (reply, s')) : R s' := by
  unfold process? at h
  split at h
  · cases h
    exact start
  · next command read =>
    obtain ⟨⟨result, s₁⟩, run, h⟩ := Option.bind_eq_some_iff.1 h
    have kept := step command read result s₁ run
    cases result <;>
    · cases h
      exact kept

/-- A line leaves an orderly session orderly. -/
theorem process?_orderly {s s' : Session} (orderly : s.Orderly) {line : List Char} {reply : Reply}
    (h : s.process? line = some (reply, s')) : s'.Orderly :=
  kept_of_process? orderly (fun command _ => execute_orderly orderly command) h

/-- The session after some lines, each of which has got a reply. -/
def after? (s : Session) (lines : List (List Char)) : Option Session :=
  lines.foldlM (fun s line => (s.process? line).map (·.2)) s

/-- What a session keeps with each line, it keeps with all of them. -/
theorem after?_induction {R : Session → Prop} {s s' : Session} {lines : List (List Char)}
    (start : R s)
    (step : ∀ s₁ line reply s₂, R s₁ → s₁.process? line = some (reply, s₂) → R s₂)
    (h : s.after? lines = some s') : R s' := by
  induction lines generalizing s with
  | nil =>
    cases h
    exact start
  | cons line lines ih =>
    simp only [after?, List.foldlM_cons, Option.bind_eq_bind, Option.bind_eq_some_iff] at h
    obtain ⟨s₁, first, rest⟩ := h
    obtain ⟨⟨reply, s₂⟩, answered, rfl⟩ := Option.map_eq_some_iff.1 first
    exact ih (step s line reply s₂ start answered) rest

theorem orderly_of_after? {s s' : Session} {lines : List (List Char)} (orderly : s.Orderly)
    (h : s.after? lines = some s') : s'.Orderly :=
  after?_induction orderly (fun _ _ _ _ kept answered => process?_orderly kept answered) h

/-- A session that starts with nothing declared is orderly after any lines. -/
theorem orderly_after (config : Config) (limit : Nat) (lines : List (List Char)) (s : Session)
    (h : ({ config, limit } : Session).after? lines = some s) : s.Orderly := by
  refine orderly_of_after? ⟨Store.orderly_empty, ?_, fun c d a hd _ => ?_⟩ h
  · exact Signature.over_empty _
  · cases hd

/-- A line that declares a hole, one that assigns one, one that fails and one that applies a rule:
the placeholder of each match is gone, and the hole of the failed line has stayed. -/
theorem orderly_after_four :
    let lines := ["axiom c (f _)", "match (f ?x) in (f a)", "def d (g ?y #)",
      "rewrite (f ?z) = ?z in (f b)"]
    ∃ s, ({ config := {}, limit := 9 } : Session).after? (lines.map String.toList) = some s ∧
      s.store.slots.map (·.map fun d => d.value?) =
        [some none, some (some (.const "a")), none, some none, some (some (.const "b")), none] ∧
      s.Orderly := by
  intro lines
  have run : (({ config := {}, limit := 9 } : Session).after? (lines.map String.toList)).map
      (fun s => s.store.slots.map (·.map fun d => d.value?)) = some
        [some none, some (some (.const "a")), none, some none, some (some (.const "b")), none] := by
    decide +kernel
  obtain ⟨s, hs, slots⟩ := Option.map_eq_some_iff.1 run
  exact ⟨s, hs, slots, orderly_after {} 9 _ s hs⟩

end Session

end Console

end KeyedMatching
