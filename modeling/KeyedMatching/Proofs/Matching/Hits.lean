import KeyedMatching.Proofs.Matching.Located

/-!
# The nodes that a pass can find

What the trials of a pass come to at each node by itself, without the walk that makes them.

* `FirstHit`: the match that counts at a node, of the first pattern in the list and the shortest
  prefix of the spine for which a trial succeeds;
* `Hits`: the matches that count, node by node, in a list of nodes;
* `hits`: the same as a function; `hits_spec` says that it has these matches, in order, and
  `Hits.eq_hits` that there is no other list of them;
* `hit?_of_tryPatterns`: what trying the patterns at a node finds.
-/

namespace KeyedMatching

/-! ## Trials and their counts -/

namespace Trial

section
variable {α β : Type}

/-- The count of refused matches goes up by what the trial adds, and is not looked at. -/
def Blind (x : Trial α) : Prop :=
  ∀ n, x.run.run n = (x.run.run 0).map fun r => (r.1, r.2 + n)

/-- The success of a trial. One that fails or is cut off has none. -/
def success? (x : Trial α) : Option α :=
  (x.run.run 0).bind (·.1)

theorem blind_pure (a : α) : Blind (pure a : Trial α) := by
  intro n
  simp [OptionT.run_pure]

theorem blind_failure : Blind (failure : Trial α) := by
  intro n
  simp [OptionT.run_failure]

theorem blind_ofAnswer (o : Option α) : Blind (ofAnswer o) := by
  intro n
  cases o <;> simp [ofAnswer]

theorem blind_ofResult (o : Option (Option α)) : Blind (ofResult o) := by
  intro n
  cases o <;> simp [ofResult]

theorem blind_ofOption (o : Option α) : Blind (ofOption o) := by
  intro n
  simp [ofOption]

theorem blind_count (k : Nat) : Blind (modify (· + k) : Trial PUnit) := by
  intro n
  change some (some PUnit.unit, n + k) = some (some PUnit.unit, 0 + k + n)
  rw [Nat.zero_add, Nat.add_comm]

theorem blind_bind {x : Trial α} {f : α → Trial β} (hx : Blind x) (hf : ∀ a, Blind (f a)) :
    Blind (x >>= f) := by
  intro n
  simp only [OptionT.run_bind, StateT.run_bind, Option.elimM, Option.bind_eq_bind, hx n]
  cases x.run.run 0 with
  | none => rfl
  | some r =>
    obtain ⟨a?, m⟩ := r
    cases a? with
    | none => simp
    | some a =>
      simp only [Option.map_some, Option.bind_some, Option.elim_some]
      rw [hf a (m + n), hf a m, Option.map_map]
      simp [Function.comp_def, Nat.add_assoc]

/-- A trial with an answer succeeds as it does by itself. -/
theorem Blind.success?_eq {x : Trial α} (hx : Blind x) {n n' : Nat} {a? : Option α}
    (h : x.run.run n = some (a?, n')) : x.success? = a? := by
  rw [hx n] at h
  obtain ⟨r, hr, eq⟩ := Option.map_eq_some_iff.1 h
  cases eq
  rw [success?, hr]
  rfl

/-- A sequence succeeds as its parts do by themselves. -/
theorem success?_bind {x : Trial α} {f : α → Trial β} (hf : ∀ a, Blind (f a)) :
    (x >>= f).success? = x.success?.bind fun a => (f a).success? := by
  simp only [success?, OptionT.run_bind, StateT.run_bind, Option.elimM, Option.bind_eq_bind]
  cases x.run.run 0 with
  | none => rfl
  | some r =>
    obtain ⟨a?, m⟩ := r
    cases a? with
    | none => rfl
    | some a =>
      simp only [Option.bind_some, Option.elim_some]
      rw [hf a m]
      cases (f a).run.run 0 <;> rfl

theorem success?_pure (a : α) : (pure a : Trial α).success? = some a := by
  simp [success?]

theorem success?_ofOption (o : Option α) : (ofOption o).success? = o := by
  simp [success?, ofOption]

/-- The first success of trials with an answer. -/
theorem findSome?_of_first {f : α → Trial β} (hf : ∀ a, Blind (f a)) {xs : List α} {n n' : Nat}
    {b? : Option β} (h : (first f xs).run.run n = some (b?, n')) :
    xs.findSome? (fun x => (f x).success?) = b? := by
  induction xs generalizing n with
  | nil =>
    cases h
    rfl
  | cons x xs ih =>
    simp only [first, OptionT.run_orElse, StateT.run_bind, Option.elimM, Option.bind_eq_bind,
      Option.bind_eq_some_iff, Prod.exists] at h
    obtain ⟨a?, m, hm, h⟩ := h
    rw [List.findSome?_cons, (hf x).success?_eq hm]
    cases a? with
    | some a =>
      cases h
      rfl
    | none => exact ih h

end

end Trial

/-! ## Hits -/

section
variable (cx : Context) (u : Unifier) (scope : Scope) (base : Store) (pass : Pass)

/-- The prefixes of the spine of a node that a pattern may match, by their lengths. -/
def prefixes (p : Pattern) (t : Term) (d : Nat) : List Nat :=
  (keyPrefixes? cx pass p t.head t.args.length d).getD []

/-- The match of a pattern with a prefix of a node under `d` binders, moved out of these: what a
trial by itself comes to, starting from the store `base`. -/
def attempt? (index : Nat) (p : Pattern) (t : Term) (d len : Nat) : Option Located :=
  ((Term.mk t.head (t.args.take len)).lower? 0 d).bind fun sub =>
    (tryPattern cx u scope base pass index p sub).success?

/-- The match that counts at a node under `d` binders: that of the first pattern that matches the
node or a prefix, and of the shortest prefix that it matches. -/
def FirstHit (ps : List Pattern) (t : Term) (d : Nat) (l : Located) : Prop :=
  ∃ i p len, ps[i]? = some p ∧ len ∈ prefixes cx pass p t d ∧
    attempt? cx u scope base pass i p t d len = some l ∧
    (∀ j q, j < i → ps[j]? = some q → ∀ m ∈ prefixes cx pass q t d,
      attempt? cx u scope base pass j q t d m = none) ∧
    ∀ m ∈ prefixes cx pass p t d, m < len → attempt? cx u scope base pass i p t d m = none

/-- No pattern matches the node or a prefix. -/
def NoHit (ps : List Pattern) (t : Term) (d : Nat) : Prop :=
  ∀ i p, ps[i]? = some p → ∀ m ∈ prefixes cx pass p t d,
    attempt? cx u scope base pass i p t d m = none

/-- The matches that count in a list of nodes, in the order of the nodes. -/
inductive Hits (ps : List Pattern) : List (Term × Nat) → List Located → Prop
  | nil : Hits ps [] []
  | hit {t d l nodes ls} : FirstHit cx u scope base pass ps t d l → Hits ps nodes ls →
    Hits ps ((t, d) :: nodes) (l :: ls)
  | miss {t d nodes ls} : NoHit cx u scope base pass ps t d → Hits ps nodes ls →
    Hits ps ((t, d) :: nodes) ls

/-- The match of one pattern that counts at a node. -/
def hitBy? (t : Term) (d index : Nat) (p : Pattern) : Option Located :=
  (prefixes cx pass p t d).findSome? fun len => attempt? cx u scope base pass index p t d len

/-- The match that counts at a node. -/
def hit? (ps : List Pattern) (t : Term) (d : Nat) : Option Located :=
  ps.zipIdx.findSome? fun (p, index) => hitBy? cx u scope base pass t d index p

/-- The matches that count in a list of nodes. -/
def hits (ps : List Pattern) (nodes : List (Term × Nat)) : List Located :=
  nodes.filterMap fun (t, d) => hit? cx u scope base pass ps t d

end

section
variable {cx : Context} {u : Unifier} {scope : Scope} {base : Store} {pass : Pass}
  {ps : List Pattern} {t : Term} {d : Nat}

/-- Longer prefixes are tried after shorter ones. -/
theorem ascending_prefixes (p : Pattern) (t : Term) (d : Nat) :
    (prefixes cx pass p t d).Pairwise (· < ·) := by
  have single (ok : Bool) (len n : Nat) :
      (if ok && (if len = 0 then n = 0 else len ≤ n) then [len] else []).Pairwise (· < ·) := by
    by_cases admitted : (ok && (if len = 0 then n = 0 else len ≤ n)) = true
    · rw [if_pos admitted]
      exact List.pairwise_singleton _ _
    · rw [if_neg admitted]
      exact .nil
  have range (arity n : Nat) : ((List.range n).map (arity + ·)).Pairwise (· < ·) := by
    rw [List.pairwise_map]
    refine List.pairwise_lt_range.imp ?_
    intro a b less
    omega
  unfold prefixes keyPrefixes?
  cases p.cls with
  | fixed => exact single _ _ _
  | foreignHole k => exact single _ _ _
  | localDefinition => exact single _ _ _
  | rigid shape => exact single _ _ _
  | flexible k =>
    cases pass with
    | firstOrder => exact single _ _ _
    | higherOrder => exact range _ _
  | projection proj params =>
    dsimp only
    split
    · split
      · exact single _ _ _
      · split
        · split
          · exact .nil
          · exact single _ _ _
        · exact .nil
    · exact .nil

theorem hitBy?_eq_none {index : Nat} {p : Pattern} :
    hitBy? cx u scope base pass t d index p = none ↔
      ∀ m ∈ prefixes cx pass p t d, attempt? cx u scope base pass index p t d m = none := by
  simp [hitBy?, List.findSome?_eq_none_iff]

/-- The shortest prefix comes first. -/
theorem exists_of_hitBy? {index : Nat} {p : Pattern} {l : Located}
    (h : hitBy? cx u scope base pass t d index p = some l) :
    ∃ len ∈ prefixes cx pass p t d, attempt? cx u scope base pass index p t d len = some l ∧
      ∀ m ∈ prefixes cx pass p t d, m < len →
        attempt? cx u scope base pass index p t d m = none := by
  obtain ⟨before, len, after, split, found, failed⟩ := List.findSome?_eq_some_iff.1 h
  have sorted : (prefixes cx pass p t d).Pairwise (· < ·) := ascending_prefixes p t d
  rw [split] at sorted ⊢
  refine ⟨len, by simp, found, ?_⟩
  intro m hm less
  have order := (List.pairwise_append.1 sorted).2.1
  rw [List.pairwise_cons] at order
  rcases List.mem_append.1 hm with earlier | rest
  · exact failed m earlier
  · rcases List.mem_cons.1 rest with rfl | later
    · omega
    · have := order.1 m later
      omega

theorem firstHit_of_hit? {l : Located} (h : hit? cx u scope base pass ps t d = some l) :
    FirstHit cx u scope base pass ps t d l := by
  obtain ⟨before, ⟨p, i⟩, after, split, found, failed⟩ := List.findSome?_eq_some_iff.1 h
  obtain ⟨len, admissible, success, shorter⟩ := exists_of_hitBy? found
  have position (q : Pattern) (j : Nat) (hq : ps[j]? = some q) : (q, j) ∈ ps.zipIdx :=
    List.mk_mem_zipIdx_iff_getElem?.2 hq
  have listed : ps[i]? = some p := by
    apply List.mk_mem_zipIdx_iff_getElem?.1
    rw [split]
    simp
  refine ⟨i, p, len, listed, admissible, success, ?_, shorter⟩
  intro j q less hq
  -- An earlier pattern stands before the one that was found.
  have order : ps.zipIdx.Pairwise fun a b => a.2 < b.2 := by
    have ascending : (ps.zipIdx.map Prod.snd).Pairwise (· < ·) := by
      rw [List.zipIdx_map_snd]
      exact List.pairwise_lt_range'
    exact List.pairwise_map.1 ascending
  rw [split] at order
  have place := position q j hq
  rw [split] at place
  rcases List.mem_append.1 place with earlier | rest
  · exact hitBy?_eq_none.1 (failed (q, j) earlier)
  · have later := (List.pairwise_append.1 order).2.1
    rw [List.pairwise_cons] at later
    rcases List.mem_cons.1 rest with same | after
    · cases same
      omega
    · have := later.1 (q, j) after
      dsimp only at this
      omega

theorem noHit_of_hit? (h : hit? cx u scope base pass ps t d = none) :
    NoHit cx u scope base pass ps t d := by
  intro i p hp
  have silent := List.findSome?_eq_none_iff.1 h (p, i) (List.mk_mem_zipIdx_iff_getElem?.2 hp)
  exact hitBy?_eq_none.1 silent

/-- No other match counts at a node. -/
theorem FirstHit.unique {l l' : Located} (h : FirstHit cx u scope base pass ps t d l)
    (h' : FirstHit cx u scope base pass ps t d l') : l = l' := by
  obtain ⟨i, p, len, listed, admissible, success, earlier, shorter⟩ := h
  obtain ⟨i', p', len', listed', admissible', success', earlier', shorter'⟩ := h'
  rcases Nat.lt_trichotomy i i' with less | rfl | more
  · rw [earlier' i p less listed len admissible] at success
    cases success
  · rw [listed] at listed'
    cases listed'
    rcases Nat.lt_trichotomy len len' with less | rfl | more
    · rw [shorter' len admissible less] at success
      cases success
    · exact Option.some.inj (success.symm.trans success')
    · rw [shorter len' admissible' more] at success'
      cases success'
  · rw [earlier i' p' more listed' len' admissible'] at success'
    cases success'

theorem FirstHit.not_noHit {l : Located} (h : FirstHit cx u scope base pass ps t d l) :
    ¬ NoHit cx u scope base pass ps t d := by
  intro silent
  obtain ⟨i, p, len, listed, admissible, success, _⟩ := h
  rw [silent i p listed len admissible] at success
  cases success

theorem hits_cons (nodes : List (Term × Nat)) :
    hits cx u scope base pass ps ((t, d) :: nodes) =
      (hit? cx u scope base pass ps t d).toList ++ hits cx u scope base pass ps nodes := by
  unfold hits
  rw [List.filterMap_cons]
  cases h : hit? cx u scope base pass ps t d <;> simp [h]

theorem hits_append (nodes nodes' : List (Term × Nat)) :
    hits cx u scope base pass ps (nodes ++ nodes') =
      hits cx u scope base pass ps nodes ++ hits cx u scope base pass ps nodes' :=
  List.filterMap_append

/-- The list of hits has the matches that count, in order. -/
theorem hits_spec (ps : List Pattern) (nodes : List (Term × Nat)) :
    Hits cx u scope base pass ps nodes (hits cx u scope base pass ps nodes) := by
  induction nodes with
  | nil => exact .nil
  | cons node nodes ih =>
    obtain ⟨t, d⟩ := node
    rw [hits_cons]
    cases h : hit? cx u scope base pass ps t d with
    | none => exact .miss (noHit_of_hit? h) ih
    | some l => exact .hit (firstHit_of_hit? h) ih

/-- There is no other list of the matches that count. -/
theorem Hits.eq_hits {nodes : List (Term × Nat)} {ls : List Located}
    (h : Hits cx u scope base pass ps nodes ls) : ls = hits cx u scope base pass ps nodes := by
  induction h with
  | nil => rfl
  | @hit t d l nodes ls first _ ih =>
    rw [hits_cons, ← ih]
    cases found : hit? cx u scope base pass ps t d with
    | none => exact absurd (noHit_of_hit? found) first.not_noHit
    | some l' =>
      rw [first.unique (firstHit_of_hit? found)]
      rfl
  | @miss t d nodes ls silent _ ih =>
    rw [hits_cons, ← ih]
    cases found : hit? cx u scope base pass ps t d with
    | none => rfl
    | some l' => exact absurd silent (firstHit_of_hit? found).not_noHit

/-! ## What trying the patterns comes to -/

theorem blind_unifyPattern (p : Pattern) (sub : Term) :
    (unifyPattern u base pass p sub).Blind := by
  cases pass with
  | firstOrder =>
    refine Trial.blind_bind (Trial.blind_ofResult _) ?_
    intro s₁
    refine Trial.blind_bind (Trial.blind_ofOption _) ?_
    intro s₂
    exact Trial.blind_ofResult _
  | higherOrder => exact Trial.blind_ofResult _

theorem blind_tryPattern (index : Nat) (p : Pattern) (sub : Term) :
    (tryPattern cx u scope base pass index p sub).Blind := by
  refine Trial.blind_bind (blind_unifyPattern p sub) ?_
  intro s
  refine Trial.blind_bind (Trial.blind_ofAnswer _) ?_
  intro r
  cases r with
  | ok m => exact Trial.blind_pure _
  | error e =>
    refine Trial.blind_bind (Trial.blind_count _) ?_
    intro _
    exact Trial.blind_failure

/-- The match of a pattern with a prefix, with its length. -/
theorem success?_tryPrefix (index : Nat) (p : Pattern) (len : Nat) :
    (do
      let sub ← Trial.ofOption ((Term.mk t.head (t.args.take len)).lower? 0 d)
      let located ← tryPattern cx u scope base pass index p sub
      return (len, located)).success? =
      (attempt? cx u scope base pass index p t d len).map (len, ·) := by
  have last (sub : Term) : (tryPattern cx u scope base pass index p sub).Blind :=
    blind_tryPattern index p sub
  have paired (l : Located) : (pure (len, l) : Trial (Nat × Located)).Blind := Trial.blind_pure _
  rw [Trial.success?_bind fun sub => Trial.blind_bind (last sub) paired, Trial.success?_ofOption,
    attempt?, Option.map_bind]
  congr 1
  funext sub
  rw [Trial.success?_bind paired]
  simp only [Trial.success?_pure]
  exact Option.map_eq_bind.symm

theorem blind_tryPrefix (index : Nat) (p : Pattern) (len : Nat) :
    (do
      let sub ← Trial.ofOption ((Term.mk t.head (t.args.take len)).lower? 0 d)
      let located ← tryPattern cx u scope base pass index p sub
      return (len, located)).Blind := by
  refine Trial.blind_bind (Trial.blind_ofOption _) ?_
  intro sub
  refine Trial.blind_bind (blind_tryPattern index p sub) ?_
  intro l
  exact Trial.blind_pure _

/-- Trying one pattern at a node, where that has an answer. -/
theorem hitBy?_of_tryNode {index n n' : Nat} {p : Pattern} {r : Option (Nat × Located)}
    (h : (tryNode cx u scope base pass t d index p).run.run n = some (r, n')) :
    hitBy? cx u scope base pass t d index p = r.map (·.2) := by
  unfold tryNode at h
  unfold hitBy? prefixes
  cases known : keyPrefixes? cx pass p t.head t.args.length d with
  | none =>
    rw [known] at h
    cases h
  | some lengths =>
    rw [known] at h
    have found := Trial.findSome?_of_first (blind_tryPrefix index p)
      (show (Trial.first _ lengths).run.run n = some (r, n') from h)
    simp only [success?_tryPrefix] at found
    rw [← found, List.map_findSome?]
    simp [Function.comp_def]

/-- Trying the patterns at a node, where that has an answer. -/
theorem hit?_of_tryPatterns {n n' : Nat} {r : Option (Nat × Located)}
    (h : (tryPatterns cx u scope base pass ps t d).run.run n = some (r, n')) :
    hit? cx u scope base pass ps t d = r.map (·.2) := by
  unfold tryPatterns at h
  unfold hit?
  generalize ps.zipIdx = qs at h ⊢
  induction qs generalizing n with
  | nil =>
    cases h
    rfl
  | cons q qs ih =>
    obtain ⟨p, index⟩ := q
    simp only [Trial.first, OptionT.run_orElse, StateT.run_bind, Option.elimM,
      Option.bind_eq_bind, Option.bind_eq_some_iff, Prod.exists] at h
    obtain ⟨r?, m, hm, h⟩ := h
    rw [List.findSome?_cons]
    dsimp only
    rw [hitBy?_of_tryNode hm]
    cases r? with
    | some hit =>
      cases h
      rfl
    | none => exact ih h

end

end KeyedMatching
