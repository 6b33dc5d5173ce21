import KeyedMatching.Proofs.Console.Invariant
import KeyedMatching.Proofs.Console.Refusal
import KeyedMatching.Proofs.Matching.Spans

/-!
# Registered counts

The counts that lines register are words, each for itself. The sum of one of them and the number of
arguments of a projection need not be.

* `Session.Counting`: steps that register words only;
* `Session.spans_after`: what comes of the counts that a session has registered, in words;
* `Session.overflowing_count`: a count that is a word, and has no answer.
-/

namespace KeyedMatching

/-- The counts of projections and of canonical forms are words. -/
structure Signature.Counted (g : Signature) : Prop where
  projections : ∀ p n, g.projection? p = some n → n < Text.bound64
  canonicals : ∀ p h form, g.canonical? p h = some form → form.extra < Text.bound64

section
variable {g : Signature}

theorem Signature.Counted.addProjection (counted : g.Counted) (c : String) {n : Nat}
    (word : n < Text.bound64) : (g.addProjection c n).Counted where
  projections p m hm := by
    rw [Signature.projection?, Signature.addProjection, List.lookup_cons] at hm
    split at hm
    · cases hm
      exact word
    · exact counted.projections p m hm
  canonicals := counted.canonicals

theorem Signature.Counted.addCanonical (counted : g.Counted) (proj head : String)
    {form : Canonical} (word : form.extra < Text.bound64) :
    (g.addCanonical proj head form).Counted where
  projections := counted.projections
  canonicals p h form' hm := by
    rw [Signature.canonical?, Signature.addCanonical, List.lookup_cons] at hm
    split at hm
    · cases hm
      exact word
    · exact counted.canonicals p h form' hm

theorem Signature.Counted.declare (counted : g.Counted) (c : String) (type : Term) :
    (g.declare c type).Counted :=
  ⟨counted.projections, counted.canonicals⟩

theorem Signature.Counted.define (counted : g.Counted) (c : String) (body : Term)
    (type? : Option Term) : (g.define c body type?).Counted := by
  cases type? <;> exact ⟨counted.projections, counted.canonicals⟩

end

namespace Spans

/-- The counts that are registered for the projection `p` and for applications of `h` are words, and
this is what unification and the filter come to when they compute in words. -/
structure InWords (cx : Context) (p h : String) (params : Nat) (form : Canonical) : Prop where
  params_lt : params < Text.bound64
  extra_lt : form.extra < Text.bound64
  /-- Unification goes on with the parts, and has no answer where there is a fault. -/
  unification (again : Store → Term → Term → Attempt Store) (s : Store) (xs ys : List Term) :
    Unify.canonical cx again s (.mk (.const p) xs) (.mk (.const h) ys) =
      match parts checked form.extra params xs ys with
      | .error _ => Attempt.ofAnswer none
      | .ok none => failure
      | .ok (some c) => c.compare again s form.inst
  /-- The only fault is a sum that is no word. -/
  checked (xs ys : List Term) : parts checked form.extra params xs ys =
    if 0 < params ∧ params ≤ xs.length ∧ Text.bound64 ≤ form.extra + (xs.length - params) then
      .error .overflow
    else .ok (parts? form.extra params xs ys)
  /-- Where sums wrap around, the only fault is to read past the end of the constant's arguments,
  and there is one if their number is what is left of such a sum. -/
  wrapping (xs ys : List Term) : xs.length < Text.bound64 → ys.length < Text.bound64 →
    parts wrapping form.extra params xs ys =
      if 0 < params ∧ params ≤ xs.length ∧
          form.extra + (xs.length - params) = ys.length + Text.bound64 then
        .error .outOfBounds
      else .ok (parts? form.extra params xs ys)
  /-- The filter, for a pattern that is taken for an application of the projection: the parameters
  are there, and it goes on with the lengths, or has no answer where the same sum is no word. -/
  filter {known : Scope} {s s' : Store} {c : Candidate} {pat : Pattern}
    (compiled : Pattern.compile? cx s known c = some (.ok (pat, s')))
    (cls : pat.cls = .projection p params) (other : h ≠ p) (n d : Nat) :
    let arity := pat.term.args.length
    0 < params ∧ params ≤ arity ∧
      keyPrefixes? cx .higherOrder pat (.const h) n d =
        (lengths Spans.checked form.extra params arity n).toOption ∧
      lengths Spans.checked form.extra params arity n =
        (if Text.bound64 ≤ form.extra + (arity - params) then .error .overflow
        else .ok (fitting (form.extra + (arity - params)) n)) ∧
      lengths Spans.wrapping form.extra params arity n =
        .ok (fitting ((form.extra + (arity - params)) % Text.bound64) n)

theorem inWords {cx : Context} (counted : cx.signature.Counted) {p h : String} {params : Nat}
    {form : Canonical} (hp : cx.signature.projection? p = some params)
    (hc : cx.signature.canonical? p h = some form) : InWords cx p h params form := by
  have extra_lt := counted.canonicals p h form hc
  refine ⟨counted.projections p params hp, extra_lt, canonical_eq hp hc, parts_checked _ _,
    fun xs ys => parts_wrapping extra_lt, fun compiled cls other n d => ?_⟩
  obtain ⟨_, pos, le⟩ := params_of_compile? compiled cls
  exact ⟨pos, le, keyPrefixes?_eq cls le other hc n d, lengths_checked le n, lengths_wrapping le n⟩

end Spans

namespace Console

/-- The count of the command, if it has one, is a word. -/
def Command.Counted : Command → Prop
  | .projection _ n | .canonical _ _ _ n => n < Text.bound64
  | _ => True

theorem lt_of_digits? {bound n : Nat} {cs : List Char} (h : Text.digits? bound cs = some n) :
    n < bound := by
  unfold Text.digits? at h
  split_ifs at h
  cases h
  assumption

theorem lt_of_signed? {bound n : Nat} {cs : List Char} (h : Text.signed? bound cs = some n) :
    n < bound := by
  unfold Text.signed? at h
  split at h <;> exact lt_of_digits? h

theorem Command.counted_of_ofItems {verb : Verb} {is : List (List Char)} {c : Command}
    (h : Command.ofItems verb is = .ok c) : c.Counted := by
  unfold Command.ofItems at h
  split at h
  · cases h
    trivial
  · cases h
    trivial
  · cases h
    trivial
  · split at h
    · next n read =>
      cases h
      exact lt_of_signed? read
    · cases h
  · split at h
    · next n read =>
      cases h
      exact lt_of_signed? read
    · cases h
  · cases h
    trivial
  · cases taken : takeOccurrences is with
    | error e => rw [taken] at h; cases h
    | ok r =>
      rw [taken] at h
      dsimp only [bind, Except.bind] at h
      split at h <;> cases h
      trivial
  · cases taken : takeOccurrences is with
    | error e => rw [taken] at h; cases h
    | ok r =>
      rw [taken] at h
      dsimp only [bind, Except.bind] at h
      split at h <;> cases h
      trivial
  · cases h

theorem Command.counted_of_ofLine {line : List Char} {c : Command}
    (h : Command.ofLine line = .ok c) : c.Counted := by
  unfold Command.ofLine at h
  have ofVerb (verb : Verb) (rest : List Char)
      (h : (do ofItems verb (← items rest) : Except ConsoleError Command) = .ok c) : c.Counted := by
    cases read : items rest with
    | error e => rw [read] at h; cases h
    | ok is => rw [read] at h; exact counted_of_ofItems h
  dsimp only at h
  split at h
  · cases h
    trivial
  · split at h
    all_goals first
      | exact ofVerb _ _ h
      | (cases h; trivial)
      | cases h

/-! ## Steps -/

namespace Session

/-- The step registers words, if all that are registered are words. -/
def Counting {α : Type} (x : SessionM α) : Prop :=
  ∀ s : Session, s.signature.Counted → x.Leads s fun _ s' => s'.signature.Counted

section
variable {α β : Type} {x : SessionM α} {f : α → SessionM β}

/-- So does one that only reads. -/
theorem Growing.counting (hx : Growing x) : Counting x := by
  intro s counted
  refine (hx s).mono fun r s' gains => ?_
  rw [(gains fun _ _ => id).signature]
  exact counted

theorem counting_bind (hx : Counting x) (hf : ∀ a, Counting (f a)) : Counting (x >>= f) :=
  fun s counted => ExceptT.leads_bind (hx s counted) (fun _ _ h => h) fun a s' h => hf a s' h

theorem counting_modify {g : Session → Session}
    (h : ∀ s : Session, s.signature.Counted → (g s).signature.Counted) : Counting (modify g) :=
  fun s counted => ExceptT.leads_modify (h s counted)

theorem counting_modify_return {g : Session → Session} {b : β}
    (h : ∀ s : Session, s.signature.Counted → (g s).signature.Counted) :
    Counting (do modify g; return b) :=
  counting_bind (counting_modify h) fun _ => Growing.counting refusing_pure

theorem counting_throw {e : ConsoleError} : Counting (throw e : SessionM α) :=
  Growing.counting refusing_throw

theorem counting_pure {a : α} : Counting (pure a) :=
  Growing.counting refusing_pure

end

theorem counting_runFill (occ : Occurrences) (pattern target : List Char) :
    Counting (runFill occ pattern target) := by
  refine counting_bind growing_forgetHoles.counting fun _ => ?_
  refine counting_bind (growing_read target).counting fun target => ?_
  refine counting_bind growing_get.counting fun before => ?_
  refine counting_bind (growing_read pattern).counting fun pattern => ?_
  refine counting_bind growing_get.counting fun s => ?_
  refine counting_bind (growing_ofAnswer _).counting fun report => ?_
  refine counting_bind (growing_recordCounters _).counting fun _ => ?_
  split
  · exact counting_throw
  · exact counting_modify_return fun _ => id

theorem counting_runRules (occ : Occurrences) (rules : List (Option RuleText))
    (target : List Char) : Counting (runRules occ rules target) := by
  refine counting_bind growing_forgetHoles.counting fun _ => ?_
  refine counting_bind (growing_read target).counting fun target => ?_
  refine counting_bind growing_get.counting fun before => ?_
  refine counting_bind (growing_readRules rules).counting fun rules => ?_
  refine counting_bind growing_get.counting fun s => ?_
  refine counting_bind (growing_ofAnswer _).counting fun report => ?_
  refine counting_bind (growing_recordCounters _).counting fun _ => ?_
  split
  · exact counting_throw
  · exact counting_modify_return fun _ => id

/-- A command with a word registers words only. -/
theorem counting_execute {command : Command} (word : command.Counted) :
    Counting (execute command) := by
  cases command with
  | nothing => exact counting_pure
  | help => exact counting_pure
  | quit => exact counting_pure
  | metrics =>
    refine counting_bind growing_get.counting fun s => ?_
    split <;> exact counting_pure
  | declare name type =>
    refine counting_bind (growing_read type).counting fun type => ?_
    exact counting_modify_return fun s counted => counted.declare name type
  | define name type? body =>
    refine counting_bind (growing_readOptional type?).counting fun type? => ?_
    refine counting_bind (growing_read body).counting fun body => ?_
    exact counting_modify_return fun s counted => counted.define name body type?
  | projection name params =>
    exact counting_modify_return fun s counted => counted.addProjection name word
  | canonical proj head inst extra =>
    refine counting_bind (growing_read inst).counting fun inst => ?_
    exact counting_modify_return fun s counted => counted.addCanonical proj head word
  | inst name type =>
    refine counting_bind (growing_read type).counting fun type => ?_
    exact counting_modify_return fun s counted =>
      ⟨(counted.declare name type).projections, (counted.declare name type).canonicals⟩
  | fill occ pattern target =>
    exact counting_bind (counting_runFill occ pattern target) fun _ => counting_pure
  | applyRules occ rules target =>
    exact counting_bind (counting_runRules occ rules target) fun _ => counting_pure
  | configure json =>
    have shown : Counting (do return .text (← get).config.toJson : SessionM Reply) :=
      counting_bind growing_get.counting fun _ => counting_pure
    dsimp only [execute]
    split
    · split
      · exact counting_bind (counting_modify fun _ => id) fun _ => shown
      · exact counting_bind counting_throw fun _ => shown
    · exact shown

/-! ## Lines -/

theorem counted_of_process? {s s' : Session} {line : List Char} {reply : Reply}
    (counted : s.signature.Counted) (h : s.process? line = some (reply, s')) :
    s'.signature.Counted :=
  kept_of_process? (R := fun s => s.signature.Counted) counted
    (fun _ read => counting_execute (Command.counted_of_ofLine read) s counted) h

theorem counted_of_after? {s s' : Session} {lines : List (List Char)}
    (counted : s.signature.Counted) (h : s.after? lines = some s') : s'.signature.Counted :=
  after?_induction (R := fun s => s.signature.Counted) counted
    (fun _ _ _ _ kept answered => counted_of_process? kept answered) h

/-- Whatever counts the lines of a session have registered: they are words, the parts that the lists
of arguments are cut into are there, and the one thing that may go wrong is that the sum of two
counts is no word. -/
theorem spans_after (config : Config) (limit : Nat) (lines : List (List Char)) (s : Session)
    (h : ({ config, limit } : Session).after? lines = some s) {p head : String} {params : Nat}
    {form : Canonical} (hp : s.signature.projection? p = some params)
    (hc : s.signature.canonical? p head = some form) :
    Spans.InWords s.context p head params form := by
  have start : ({} : Signature).Counted := ⟨fun _ _ h => (nomatch h), fun _ _ _ h => (nomatch h)⟩
  exact Spans.inWords (counted_of_after? start h) hp hc

/-- A projection with its structure alone, and a canonical form with one argument in it. -/
theorem spans_after_two :
    let lines := ["proj p 1", "canonical p h i 1"]
    ∃ s, ({} : Session).after? (lines.map String.toList) = some s ∧
      s.signature.projection? "p" = some 1 ∧
      s.signature.canonical? "p" "h" = some ⟨.const "i", 1⟩ ∧
      Spans.InWords s.context "p" "h" 1 ⟨.const "i", 1⟩ := by
  intro lines
  have run : (({} : Session).after? (lines.map String.toList)).map
      (fun s => (s.signature.projection? "p", s.signature.canonical? "p" "h")) =
        some (some 1, some ⟨.const "i", 1⟩) := by
    decide +kernel
  obtain ⟨s, hs, known⟩ := Option.map_eq_some_iff.1 run
  obtain ⟨hp, hc⟩ := Prod.mk.inj known
  exact ⟨s, hs, hp, hc, spans_after {} _ _ s hs hp hc⟩

/-- The largest word is registered, and a projection with one argument after its structure is looked
for. There is no answer: the sum is no word, and wrapped around it is the number of arguments of
`h`, which has none to be cut off. -/
theorem overflowing_count :
    let lines := ["proj p 1", "canonical p h i 18446744073709551615"]
    ∃ s, ({} : Session).after? (lines.map String.toList) = some s ∧
      s.process? "match (p ?s x) in h".toList = none ∧
      s.signature.projection? "p" = some 1 ∧
      s.signature.canonical? "p" "h" = some ⟨.const "i", 18446744073709551615⟩ ∧
      Spans.lengths Spans.checked 18446744073709551615 1 2 0 = .error .overflow ∧
      Spans.lengths Spans.wrapping 18446744073709551615 1 2 0 = .ok [0] ∧
      Spans.parts Spans.wrapping 18446744073709551615 1 [.hole 0 [], .const "x"] [] =
        .error .outOfBounds := by
  intro lines
  have run : (({} : Session).after? (lines.map String.toList)).map
      (fun s => ((s.process? "match (p ?s x) in h".toList).isNone, s.signature.projection? "p",
        s.signature.canonical? "p" "h")) =
        some (true, some 1, some ⟨.const "i", 18446744073709551615⟩) := by
    decide +kernel
  obtain ⟨s, hs, known⟩ := Option.map_eq_some_iff.1 run
  obtain ⟨cut, hp, hc⟩ := Prod.mk.inj known |>.imp_right Prod.mk.inj
  exact ⟨s, hs, Option.isNone_iff_eq_none.1 cut, hp, hc, by decide, by decide, by decide⟩

end Session

end Console

end KeyedMatching
