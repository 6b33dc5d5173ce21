import KeyedMatching.Proofs.Matching.Compiled
import KeyedMatching.Proofs.Term.Framed
import KeyedMatching.Proofs.Term.Inert
import KeyedMatching.Proofs.Term.Renumbering

/-!
# The first-order form of a pattern

The first-order form has a placeholder where the pattern has a hole of its own, with the instance of
the hole as it is.

* `Pattern.Paired`: what a renaming has declared at any time, kept by each of its steps;
* `Pattern.Renames`: what it has made of a term; `Renames.renumber_eq` undoes it, and
  `Renames.beneath` finds the own holes that are left;
* `firstOrder_of_compile?`: the same of a pattern made ready.

The renaming does not look inside what it has put in, so an own hole that stands in the instance of
another one is left as it is: `misrenamed_patterns`.
-/

namespace KeyedMatching

/-- Hole `k` occurs in the instance of a hole of `l` that occurs in the term. -/
def Term.Beneath (l : List Nat) (t : Term) (k : Nat) : Prop :=
  ∃ q inst d, (Term.hole q inst, d) ∈ t.preorder 0 ∧ q ∈ l ∧ ∃ x ∈ inst, k ∈ x.holes

/-- What holds of the second term of every related pair holds of the children of the second head. -/
theorem Head.Framed.forall_children {P : Term → Prop} {h g : Head}
    (framed : Framed (fun _ y => P y) h g) : ∀ c ∈ g.children, P c.1 := by
  have all {xs ys : List Term} {d : Nat} (hxs : List.Forall₂ (fun _ y => P y) xs ys) :
      ∀ c ∈ ys.map (·, d), P c.1 :=
    List.forall_mem_map.2 (Store.forall_right_of_forall₂ hxs)
  cases framed with
  | rel | sort | const => nofun
  | hole hxs => exact all hxs
  | pi ha hb | lam ha hb => simp [Head.children, ha, hb]
  | letIn hv ha hb => simp [Head.children, hv, ha, hb]
  | cast ht ha => simp [Head.children, ht, ha]
  | case hr hc hbs =>
    exact List.forall_mem_cons.2 ⟨hr, List.forall_mem_cons.2 ⟨hc, all hbs⟩⟩
  | fix has hbs => exact List.forall_mem_append.2 ⟨all has, all hbs⟩

namespace Pattern

/-- The hole for which a placeholder stands. Any other hole stands for itself. -/
def holeOf (l : List (Nat × Nat)) (q : Nat) : Nat :=
  (l.lookup q).getD q

section
variable {s : Store} {known : Scope} {r : Renaming} {l : List (Nat × Nat)}

theorem holeOf_of_mem (nodup : (l.map Prod.fst).Nodup) {q k : Nat} (h : (q, k) ∈ l) :
    holeOf l q = k := by
  induction l with
  | nil => cases h
  | cons p l ih =>
    obtain ⟨first, rest⟩ := List.nodup_cons.1 nodup
    rcases List.mem_cons.1 h with rfl | later
    · simp [holeOf]
    · have other : (q == p.1) = false :=
        beq_eq_false_iff_ne.2 fun same => first (same ▸ List.mem_map_of_mem later)
      rw [holeOf, List.lookup_cons, other]
      exact ih rest later

theorem holeOf_of_not_mem {q : Nat} (h : q ∉ l.map Prod.fst) : holeOf l q = q := by
  have none_listed : l.lookup q = none := List.lookup_eq_none_iff.2 fun p hp =>
    bne_iff_ne.2 fun same => h (same ▸ List.mem_map_of_mem hp)
  rw [holeOf, none_listed, Option.getD_none]

theorem isOwn_iff {k : Nat} : isOwn known s k = true ↔ known.contains k = false ∧
    s.frozen.contains k = false ∧ ∃ d, s.hole? k = some d ∧ d.value? = none := by
  simp only [isOwn, Store.isAssignable, Bool.and_eq_true, Bool.not_eq_true', Option.any_eq_true,
    Option.isNone_iff_eq_none]

theorem isOwn_of_extends {s' : Store} (h : s.Extends s') {k : Nat}
    (own : isOwn known s k = true) : isOwn known s' k = true := by
  obtain ⟨past, thawed, d, hd, unset⟩ := isOwn_iff.1 own
  exact isOwn_iff.2 ⟨past, h.frozen ▸ thawed, d, h.hole? hd, unset⟩

/-! ## What has been declared -/

/-- The renaming has declared one placeholder for each of some own holes, of the arity of the hole,
and nothing else. -/
structure Paired (known : Scope) (s : Store) (r : Renaming) : Prop where
  grown : s.Extends r.store
  distinct : (r.placeholders.map Prod.fst).Nodup
  once : (r.placeholders.map Prod.snd).Nodup
  pair : ∀ q k, (q, k) ∈ r.placeholders → s.slots.length ≤ q ∧ isOwn known r.store k = true ∧
    ∃ d e, r.store.hole? k = some d ∧ r.store.hole? q = some e ∧ e.kind = .placeholder ∧
      e.arity = d.arity
  /-- Every number given out since is a placeholder's. -/
  listed : ∀ q, s.slots.length ≤ q → q < r.store.slots.length → q ∈ r.placeholders.map Prod.fst

/-- The second renaming is the first, some steps further. -/
def Follows (r r' : Renaming) : Prop :=
  r.store.Extends r'.store ∧ r.placeholders ⊆ r'.placeholders

theorem follows_refl (r : Renaming) : Follows r r :=
  ⟨.refl _, fun _ hp => hp⟩

theorem follows_trans (r r₁ r' : Renaming) (h : Follows r r₁) (h' : Follows r₁ r') :
    Follows r r' :=
  ⟨h.1.trans h'.1, fun _ hp => h'.2 (h.2 hp)⟩

theorem paired_start (known : Scope) (s : Store) : Paired known s ⟨s, []⟩ := by
  constructor
  · exact .refl s
  · exact List.nodup_nil
  · exact List.nodup_nil
  · intro q k hq
    cases hq
  · intro q past inside
    exact absurd inside (Nat.not_lt.2 past)

/-- A hole that has no placeholder yet gets one. -/
theorem Paired.fresh (h : Paired known s r) {k : Nat} {d : Hole} (hd : r.store.hole? k = some d)
    (own : isOwn known r.store k = true) (unlisted : k ∉ r.placeholders.map Prod.snd) :
    Paired known s ⟨(r.store.fresh d.arity none .placeholder).2,
      r.placeholders ++ [(r.store.slots.length, k)]⟩ := by
  have grown := Store.extends_fresh r.store d.arity
  have declared : (r.store.fresh d.arity none .placeholder).2.hole? r.store.slots.length =
      some ⟨d.arity, none, .placeholder, none⟩ := by
    rw [Store.hole?_fresh, if_pos rfl]
  refine ⟨h.grown.trans grown, ?_, ?_, ?_, ?_⟩
  · have absent : r.store.slots.length ∉ r.placeholders.map Prod.fst := by
      intro hq
      obtain ⟨⟨q, l⟩, hl, rfl⟩ := List.mem_map.1 hq
      obtain ⟨_, _, _, e, _, he, _⟩ := h.pair _ l hl
      exact Nat.lt_irrefl _ (Store.lt_of_hole? he)
    rw [← List.concat_eq_append, List.map_concat]
    exact h.distinct.concat absent
  · rw [← List.concat_eq_append, List.map_concat]
    exact h.once.concat unlisted
  · intro q l hq
    rcases List.mem_append.1 hq with old | new
    · obtain ⟨past, own', d', e, hd', he, kind, arity⟩ := h.pair q l old
      exact ⟨past, isOwn_of_extends grown own', d', e, grown.hole? hd', grown.hole? he, kind, arity⟩
    · obtain ⟨rfl, rfl⟩ := Prod.mk.inj (List.mem_singleton.1 new)
      exact ⟨h.grown.size, isOwn_of_extends grown own, d, _, grown.hole? hd, declared, rfl, rfl⟩
  · intro q past inside
    rw [List.map_append]
    by_cases old : q < r.store.slots.length
    · exact List.mem_append_left _ (h.listed q past old)
    · have last : q < r.store.slots.length + 1 := by
        simpa [Store.fresh] using inside
      have here : q = r.store.slots.length := by omega
      exact List.mem_append_right _ (List.mem_singleton.2 here)

/-- An own hole that is no placeholder was there before, and was own then. -/
theorem Paired.isOwn_before (h : Paired known s r) {k : Nat} (own : isOwn known r.store k = true)
    (other : k ∉ r.placeholders.map Prod.fst) : isOwn known s k = true := by
  obtain ⟨past, thawed, d, hd, unset⟩ := isOwn_iff.1 own
  by_cases old : k < s.slots.length
  · exact isOwn_iff.2 ⟨past, h.grown.frozen ▸ thawed, d, h.grown.old k old ▸ hd, unset⟩
  · exact absurd (h.listed k (Nat.not_lt.1 old) (Store.lt_of_hole? hd)) other

/-- What holds of all lists of placeholders that have those of the renaming. -/
def Lasting (P : List (Nat × Nat) → Prop) (r : Renaming) : Prop :=
  ∀ l, r.placeholders ⊆ l → P l

theorem Lasting.later {P : List (Nat × Nat) → Prop} {r r' : Renaming} (h : Follows r r')
    (lasting : Lasting P r) : Lasting P r' :=
  fun l hl => lasting l (fun _ hp => hl (h.2 hp))

theorem lasting_pure {α : Type} {a : α} {Q : Renaming → α → Prop} (h : ∀ r, Q r a) :
    Keeps (Paired known s) Follows (pure a) Q :=
  keeps_pure follows_refl fun r _ => h r

/-- What lasts after the first computation is still so after the second. -/
theorem lasting_bind {α β : Type} {x : StateM Renaming α} {f : α → StateM Renaming β}
    {P : α → List (Nat × Nat) → Prop} {Q : Renaming → β → Prop}
    (hx : Keeps (Paired known s) Follows x fun r a => Lasting (P a) r)
    (hf : ∀ a, Keeps (Paired known s) Follows (f a) fun r b => Lasting (P a) r → Q r b) :
    Keeps (Paired known s) Follows (x >>= f) Q :=
  keeps_bind follows_trans hx (fun _ _ _ => .later) hf

/-- What the renaming answers about a node: an own hole is answered by a placeholder with the same
instance, and nothing else is answered. -/
structure Answers (known : Scope) (s : Store) (l : List (Nat × Nat)) (u : Term) (w? : Option Term) :
    Prop where
  hit : ∀ w, w? = some w → ∃ q k inst, (q, k) ∈ l ∧ u = .hole k inst ∧ w = .hole q inst
  miss : w? = none → ∀ k inst, u = .hole k inst → isOwn known s k = false

theorem paired_rename (u : Term) : Keeps (Paired known s) Follows (rename known u)
    fun r w? => Lasting (fun l => Answers known s l u w?) r := by
  intro r hr
  unfold rename
  split
  · next k inst =>
    simp only [StateT.run_bind, StateT.run_get, pure_bind]
    split
    · next own =>
      have hit {q : Nat} {r : Renaming} (hq : (q, k) ∈ r.placeholders) :
          Lasting (fun l => Answers known s l (.hole k inst) (some (.hole q inst))) r := by
        intro l hl
        constructor
        · intro w hw
          obtain rfl := Option.some.inj hw
          exact ⟨q, k, inst, hl hq, rfl, rfl⟩
        · intro no
          cases no
      split
      · next q l found =>
        have same : l = k := by simpa using List.find?_some found
        subst same
        exact ⟨hr, follows_refl r, hit (List.mem_of_find?_eq_some found)⟩
      · next unfound =>
        obtain ⟨_, _, d, hd, _⟩ := isOwn_iff.1 own
        have unlisted : k ∉ r.placeholders.map Prod.snd := by
          intro hk
          obtain ⟨⟨q, l⟩, hl, rfl⟩ := List.mem_map.1 hk
          simpa using List.find?_eq_none.1 unfound _ hl
        simp only [hd, Option.elim_some]
        refine ⟨hr.fresh hd own unlisted, ⟨Store.extends_fresh _ _, ?_⟩, ?_⟩
        · exact List.subset_append_left _ _
        · exact hit (List.mem_append_right _ (List.mem_singleton.2 rfl))
    · next foreign =>
      refine ⟨hr, follows_refl r, fun _ _ => ⟨nofun, fun _ l xs same => ?_⟩⟩
      obtain ⟨rfl, rfl⟩ : k = l ∧ inst = xs := by simpa using same
      exact Bool.eq_false_iff.2 fun own => foreign (isOwn_of_extends hr.grown own)
  · next shape =>
    refine ⟨hr, follows_refl r, fun _ _ => ⟨nofun, fun _ k inst same => ?_⟩⟩
    exact absurd same (shape k inst)

/-! ## What has been put in -/

/-- The second term is the first with placeholders for holes. A hole without one is not own, unless
it stands in the instance of a hole with one. -/
inductive Renames (known : Scope) (s : Store) (l : List (Nat × Nat)) : Term → Term → Prop
  | own {q k inst xs ys} : (q, k) ∈ l → List.Forall₂ (Renames known s l) xs ys →
    Renames known s l (.mk (.hole k inst) xs) (.mk (.hole q inst) ys)
  | other {h g xs ys} : (∀ k inst, h = .hole k inst → isOwn known s k = false) →
    h.Framed (Renames known s l) g → List.Forall₂ (Renames known s l) xs ys →
    Renames known s l (.mk h xs) (.mk g ys)

theorem Renames.apply {t u : Term} {xs ys : List Term} (h : Renames known s l t u)
    (hs : List.Forall₂ (Renames known s l) xs ys) :
    Renames known s l (t.apply xs) (u.apply ys) := by
  cases h with
  | own listed hzs => exact .own listed (List.rel_append hzs hs)
  | other foreign framed hzs => exact .other foreign framed (List.rel_append hzs hs)

/-- An answer is a renaming of the node asked about. -/
theorem Answers.renames {u w : Term} (h : Answers known s l u (some w)) :
    Renames known s l u w := by
  obtain ⟨q, k, inst, listed, rfl, rfl⟩ := h.hit w rfl
  exact .own listed .nil

/-- Without an answer about a head, it is renamed inside. -/
theorem Answers.renames_ofHead {h g : Head} (no : Answers known s l (.ofHead h) none)
    (framed : h.Framed (Renames known s l) g) : Renames known s l (.ofHead h) (.ofHead g) :=
  .other (fun k inst same => no.miss rfl k inst (congrArg Term.ofHead same)) framed .nil

-- By recursion on the term. What is said of a part must hold of the placeholders at the end, which
-- are not known when the part has been renamed: therefore of all lists with those so far.
mutual

theorem framed_replaceM : (h : Head) → (d : Nat) →
    Keeps (Paired known s) Follows (h.replaceM (fun u _ => rename known u) d)
      fun r g => Lasting (fun l => h.Framed (Renames known s l) g) r
  | .rel i, _ => lasting_pure fun _ _ _ => .rel i
  | .sort n, _ => lasting_pure fun _ _ _ => .sort n
  | .const c, _ => lasting_pure fun _ _ _ => .const c
  | .hole k xs, d => by
    refine lasting_bind (forall₂_replaceAllM xs d) fun ys => ?_
    exact lasting_pure fun _ qxs l hl => .hole (qxs l hl)
  | .pi a b, d => by
    refine lasting_bind (renames_replaceM a d) fun a' => ?_
    refine lasting_bind (renames_replaceM b (d + 1)) fun b' => ?_
    exact lasting_pure fun _ qb qa l hl => .pi (qa l hl) (qb l hl)
  | .lam a b, d => by
    refine lasting_bind (renames_replaceM a d) fun a' => ?_
    refine lasting_bind (renames_replaceM b (d + 1)) fun b' => ?_
    exact lasting_pure fun _ qb qa l hl => .lam (qa l hl) (qb l hl)
  | .letIn v a b, d => by
    refine lasting_bind (renames_replaceM a d) fun a' => ?_
    refine lasting_bind (renames_replaceM v d) fun v' => ?_
    refine lasting_bind (renames_replaceM b (d + 1)) fun b' => ?_
    exact lasting_pure fun _ qb qv qa l hl => .letIn (qv l hl) (qa l hl) (qb l hl)
  | .cast t a, d => by
    refine lasting_bind (renames_replaceM a d) fun a' => ?_
    refine lasting_bind (renames_replaceM t d) fun t' => ?_
    exact lasting_pure fun _ qt qa l hl => .cast (qt l hl) (qa l hl)
  | .case c t bs, d => by
    refine lasting_bind (renames_replaceM c d) fun c' => ?_
    refine lasting_bind (renames_replaceM t d) fun t' => ?_
    refine lasting_bind (forall₂_replaceAllM bs d) fun bs' => ?_
    exact lasting_pure fun _ qbs qt qc l hl => .case (qc l hl) (qt l hl) (qbs l hl)
  | .fix i as bs, d => by
    refine lasting_bind (forall₂_replaceAllM as d) fun as' => ?_
    refine lasting_bind (forall₂_replaceAllM bs (d + as.length)) fun bs' => ?_
    exact lasting_pure fun _ qbs qas l hl => .fix (qas l hl) (qbs l hl)

/-- Replacing by the renaming ends in a renaming of the term. -/
theorem renames_replaceM : (t : Term) → (d : Nat) →
    Keeps (Paired known s) Follows (t.replaceM (fun u _ => rename known u) d)
      fun r t' => Lasting (fun l => Renames known s l t t') r
  | .mk h [], d => by
    refine lasting_bind (paired_rename (.ofHead h)) fun w? => ?_
    cases w? with
    | some w => exact lasting_pure fun _ q l hl => (q l hl).renames
    | none =>
      refine lasting_bind (framed_replaceM h d) fun g => ?_
      exact lasting_pure fun _ framed q l hl => (q l hl).renames_ofHead (framed l hl)
  | .mk h (x :: xs), d => by
    have spine (u : Term) : Keeps (Paired known s) Follows
        (do
          let ys ← Term.replaceAllM (fun u _ => rename known u) d (x :: xs)
          return u.apply ys) fun r t' => ∀ l, r.placeholders ⊆ l →
            Renames known s l (.ofHead h) u → Renames known s l (.mk h (x :: xs)) t' := by
      refine lasting_bind (forall₂_replaceAllM (x :: xs) d) fun ys => ?_
      exact lasting_pure fun _ qxs l hl head => head.apply (qxs l hl)
    refine lasting_bind (paired_rename (.mk h (x :: xs))) fun w? => ?_
    cases w? with
    | some w => exact lasting_pure fun _ q l hl => (q l hl).renames
    | none =>
      refine lasting_bind (paired_rename (.ofHead h)) fun w? => ?_
      cases w? with
      | some w => exact (spine w).mono fun _ _ whole q _ l hl => whole l hl (q l hl).renames
      | none =>
        refine lasting_bind (framed_replaceM h d) fun g => ?_
        exact (spine (.ofHead g)).mono fun _ _ whole framed q _ l hl =>
          whole l hl ((q l hl).renames_ofHead (framed l hl))

theorem forall₂_replaceAllM : (xs : List Term) → (d : Nat) →
    Keeps (Paired known s) Follows (Term.replaceAllM (fun u _ => rename known u) d xs)
      fun r ys => Lasting (fun l => List.Forall₂ (Renames known s l) xs ys) r
  | [], _ => lasting_pure fun _ _ _ => .nil
  | x :: xs, d => by
    refine lasting_bind (renames_replaceM x d) fun y => ?_
    refine lasting_bind (forall₂_replaceAllM xs d) fun ys => ?_
    exact lasting_pure fun _ qys qy l hl => .cons (qy l hl) (qys l hl)

end

/-! ## What follows -/

/-- At the top, a renaming of a term is a placeholder alone, or no own hole; then its children are
renamings too. -/
theorem Renames.children {t u : Term} (h : Renames known s l t u) :
    (∃ q inst, q ∈ l.map Prod.fst ∧ u = .hole q inst) ∨
      (∀ k, u.hole? = some k → isOwn known s k = false) ∧
        ∀ c ∈ u.children, ∃ t', Renames known s l t' c.1 := by
  have args {xs ys : List Term} (hxs : List.Forall₂ (Renames known s l) xs ys) :
      ∀ c ∈ ys.map (·, 0), ∃ t', Renames known s l t' c.1 :=
    List.forall_mem_map.2 (Store.forall_right_of_forall₂ (hxs.imp fun x _ hx => ⟨x, hx⟩))
  cases h with
  | @own q k inst xs ys listed hxs =>
    cases ys with
    | nil => exact .inl ⟨q, inst, List.mem_map_of_mem listed, rfl⟩
    | cons y ys => exact .inr ⟨nofun, List.forall_mem_cons.2 ⟨⟨_, .own listed .nil⟩, args hxs⟩⟩
  | @other h g xs ys foreign framed hxs =>
    refine .inr ?_
    cases ys with
    | nil =>
      constructor
      · intro k hk
        cases framed with
        | hole _ =>
          obtain rfl := Option.some.inj hk
          exact foreign _ _ rfl
        | _ => cases hk
      · exact Head.Framed.forall_children (P := fun c => ∃ t', Renames known s l t' c)
          (framed.mono fun a _ ha => ⟨a, ha⟩)
    | cons y ys =>
      have applied : (Term.mk g (y :: ys)).hole? = none := by cases g <;> rfl
      constructor
      · intro k hk
        rw [applied] at hk
        cases hk
      · exact List.forall_mem_cons.2 ⟨⟨_, .other foreign framed .nil⟩, args hxs⟩

/-- Own holes are left in the instances of placeholders only. -/
theorem Renames.beneath (fresh : ∀ q ∈ l.map Prod.fst, isOwn known s q = false) {t u : Term}
    (h : Renames known s l t u) {k : Nat} (hk : k ∈ u.holes) (own : isOwn known s k = true) :
    u.Beneath (l.map Prod.fst) k := by
  -- From the top down: a node is a renaming of something, until an instance is entered.
  have nodes := Term.forall_mem_preorder
    (P := fun v => (∃ d, (v, d) ∈ u.preorder 0) ∧
      ((∃ t', Renames known s l t' v) ∨ ∀ k ∈ v.holes, u.Beneath (l.map Prod.fst) k))
    (by
      rintro v ⟨⟨d, hv⟩, renamed | inside⟩ c hc
      · refine ⟨⟨_, Term.mem_preorder_child hv hc⟩, ?_⟩
        obtain ⟨t', renamed⟩ := renamed
        rcases renamed.children with ⟨q, inst, hq, rfl⟩ | ⟨_, children⟩
        · obtain ⟨x, hx, rfl⟩ := List.mem_map.1 hc
          exact .inr fun k hk => ⟨q, inst, d, hv, hq, x, hx, hk⟩
        · exact .inl (children c hc)
      · refine ⟨⟨_, Term.mem_preorder_child hv hc⟩, .inr fun k hk => ?_⟩
        exact inside k (Term.mem_holes_of_child hc hk))
    ⟨⟨0, Term.mem_preorder_self u 0⟩, .inl ⟨t, h⟩⟩ 0
  obtain ⟨⟨v, d⟩, hv, here⟩ := List.mem_filterMap.1 hk
  obtain ⟨_, ⟨t', renamed⟩ | inside⟩ := nodes _ hv
  · rcases renamed.children with ⟨q, inst, hq, rfl⟩ | ⟨foreign, _⟩
    · obtain rfl := Option.some.inj here
      rw [fresh q hq] at own
      cases own
    · rw [foreign k here] at own
      cases own
  · exact inside k (List.mem_filterMap.2 ⟨(v, 0), Term.mem_preorder_self v 0, here⟩)

mutual

theorem Renames.renumber_framed (nodup : (l.map Prod.fst).Nodup) :
    {h g : Head} → h.Framed (Renames known s l) g →
      (Term.ofHead h).Over (fun k _ => k ∉ l.map Prod.fst) → g.renumber (holeOf l) = h
  | _, _, .rel _, _ => rfl
  | _, _, .sort _, _ => rfl
  | _, _, .const _, _ => rfl
  | .hole _ _, _, .hole hxs, p => by
    obtain ⟨free, pxs⟩ := Term.over_hole.1 p
    rw [Head.renumber, holeOf_of_not_mem free, Renames.renumber_all nodup hxs pxs]
  | .pi _ _, _, .pi ha hb, p => by
    obtain ⟨pa, pb⟩ := Term.over_pi.1 p
    rw [Head.renumber, Renames.renumber_eq nodup ha pa, Renames.renumber_eq nodup hb pb]
  | .lam _ _, _, .lam ha hb, p => by
    obtain ⟨pa, pb⟩ := Term.over_lam.1 p
    rw [Head.renumber, Renames.renumber_eq nodup ha pa, Renames.renumber_eq nodup hb pb]
  | .letIn _ _ _, _, .letIn hv ha hb, p => by
    obtain ⟨pa, pv, pb⟩ := Term.over_letIn.1 p
    rw [Head.renumber, Renames.renumber_eq nodup hv pv, Renames.renumber_eq nodup ha pa,
      Renames.renumber_eq nodup hb pb]
  | .cast _ _, _, .cast ht ha, p => by
    obtain ⟨pa, pt⟩ := Term.over_cast.1 p
    rw [Head.renumber, Renames.renumber_eq nodup ht pt, Renames.renumber_eq nodup ha pa]
  | .case _ _ _, _, .case hc ht hbs, p => by
    obtain ⟨pc, pt, pbs⟩ := Term.over_case.1 p
    rw [Head.renumber, Renames.renumber_eq nodup hc pc, Renames.renumber_eq nodup ht pt,
      Renames.renumber_all nodup hbs pbs]
  | .fix _ _ _, _, .fix has hbs, p => by
    obtain ⟨pas, pbs⟩ := Term.over_fix.1 p
    rw [Head.renumber, Renames.renumber_all nodup has pas, Renames.renumber_all nodup hbs pbs]

/-- Putting the holes back for their placeholders gives the term, if no placeholder was in it. -/
theorem Renames.renumber_eq (nodup : (l.map Prod.fst).Nodup) :
    {t u : Term} → Renames known s l t u → t.Over (fun k _ => k ∉ l.map Prod.fst) →
      u.renumber (holeOf l) = t
  | .mk _ _, _, h, p => by
    obtain ⟨ph, pxs⟩ := Term.over_mk.1 p
    cases h with
    | own listed hxs =>
      have inst := fun x hx => Term.renumber_eq_self fun k hk =>
        holeOf_of_not_mem (Term.over_holes.1 ((Term.over_hole.1 ph).2 x hx) k hk)
      rw [Term.renumber, Renames.renumber_all nodup hxs pxs, Head.renumber_hole,
        holeOf_of_mem nodup listed, List.map_congr_left inst, List.map_id']
    | other _ framed hxs =>
      rw [Term.renumber, Renames.renumber_framed nodup framed ph,
        Renames.renumber_all nodup hxs pxs]

theorem Renames.renumber_all (nodup : (l.map Prod.fst).Nodup) :
    {xs ys : List Term} → List.Forall₂ (Renames known s l) xs ys →
      (∀ x ∈ xs, x.Over fun k _ => k ∉ l.map Prod.fst) → Term.renumberAll (holeOf l) ys = xs
  | [], _, .nil, _ => rfl
  | _ :: _, _, .cons hx hxs, p => by
    obtain ⟨px, pxs⟩ := List.forall_mem_cons.1 p
    rw [Term.renumberAll, Renames.renumber_eq nodup hx px, Renames.renumber_all nodup hxs pxs]

end

/-! ## Patterns made ready -/

theorem paired_of_compile? {cx : Context} {s' : Store} {c : Candidate} {p : Pattern}
    (h : compile? cx s known c = some (.ok (p, s'))) :
    Paired known s ⟨s', p.placeholders⟩ ∧ Renames known s p.placeholders p.term p.firstOrder := by
  simp only [compile?, Option.bind_eq_bind, Option.bind_eq_some_iff] at h
  obtain ⟨term, _, h⟩ := h
  split at h
  · cases h
  · cases h
    obtain ⟨paired, _, renames⟩ := renames_replaceM term 0 ⟨s, []⟩ (paired_start known s)
    exact ⟨paired, renames _ (List.Subset.refl _)⟩

/-- What the first-order form of a pattern made ready is.

* Its placeholders are new, one for each of some own holes and of the same arity.
* Every other own hole that is left in it stands in the instance of a placeholder.
* With the holes put back for their placeholders it is the pattern, if none of the placeholders has
  the number of a hole of the pattern. -/
theorem firstOrder_of_compile? {cx : Context} {s' : Store} {c : Candidate} {p : Pattern}
    (h : compile? cx s known c = some (.ok (p, s'))) :
    (p.placeholders.map Prod.fst).Nodup ∧ (p.placeholders.map Prod.snd).Nodup ∧
    (∀ q k, (q, k) ∈ p.placeholders → s.slots.length ≤ q ∧ isOwn known s' k = true ∧
      ∃ d e, s'.hole? k = some d ∧ s'.hole? q = some e ∧ e.kind = .placeholder ∧
        e.arity = d.arity) ∧
    (∀ k ∈ p.firstOrder.holes, isOwn known s' k = true →
      k ∈ p.placeholders.map Prod.fst ∨ p.firstOrder.Beneath (p.placeholders.map Prod.fst) k) ∧
    ((∀ q ∈ p.placeholders.map Prod.fst, q ∉ p.term.holes) →
      p.firstOrder.renumber (holeOf p.placeholders) = p.term) := by
  obtain ⟨paired, renames⟩ := paired_of_compile? h
  have fresh : ∀ q ∈ p.placeholders.map Prod.fst, isOwn known s q = false := by
    intro q hq
    obtain ⟨⟨_, k⟩, hk, rfl⟩ := List.mem_map.1 hq
    refine Bool.eq_false_iff.2 fun own => ?_
    obtain ⟨_, _, d, hd, _⟩ := isOwn_iff.1 own
    exact absurd (Store.lt_of_hole? hd) (Nat.not_lt.2 (paired.pair _ k hk).1)
  refine ⟨paired.distinct, paired.once, paired.pair, fun k hk own => ?_, fun new => ?_⟩
  · by_cases listed : k ∈ p.placeholders.map Prod.fst
    · exact .inl listed
    · exact .inr (renames.beneath fresh hk (paired.isOwn_before own listed))
  · refine renames.renumber_eq paired.distinct (Term.over_holes.2 fun k hk listed => ?_)
    exact new k listed hk

/-- Hole `0` occurs twice with different instances and gets one placeholder. -/
theorem firstOrder_of_compile?_repeated :
    let cx : Context := { limit := 5 }
    let s := ((Store.empty.fresh 1 none .ordinary).2.fresh 0 none .ordinary).2
    let s' := ((s.fresh 1 none .placeholder).2.fresh 0 none .placeholder).2
    let a : Term := .const "a"
    let f (k l : Nat) : Term :=
      .mk (.const "f") [.hole k [a], .lam a (.hole l []), .hole k [.rel 0]]
    let c : Candidate := ⟨f 0 1, a, .any⟩
    let p : Pattern := ⟨c, f 0 1, .fixed, f 2 3, [(2, 0), (3, 1)]⟩
    compile? cx s ⟨0⟩ c = some (.ok (p, s')) ∧
      (f 2 3).renumber (holeOf p.placeholders) = f 0 1 := by
  intro cx s s' a f c p
  have compiled : compile? cx s ⟨0⟩ c = some (.ok (p, s')) := rfl
  obtain ⟨_, _, _, _, back⟩ := firstOrder_of_compile? compiled
  exact ⟨compiled, back (by decide +kernel)⟩

/-- Two patterns that are not what their first-order forms stand for.

* In `f ?0[?1]` hole `1` stands in the instance of hole `0`: the first-order form `f ?2[?1]` has it
  without a placeholder.
* In `f ?1 ?0` hole `1` is not declared: the placeholder of hole `0` gets its number. -/
theorem misrenamed_patterns :
    let cx : Context := { limit := 5 }
    let f (xs : List Term) : Term := .mk (.const "f") xs
    let nested := f [.hole 0 [.hole 1 []]]
    let undeclared := f [.hole 1 [], .hole 0 []]
    let s := (Store.empty.fresh 1 none .ordinary).2
    let s₂ := (s.fresh 0 none .ordinary).2
    (∃ p s', compile? cx s₂ ⟨0⟩ ⟨nested, nested, .any⟩ = some (.ok (p, s')) ∧
      nested.Over s₂.Declares ∧
      ∃ k ∈ p.firstOrder.holes, isOwn ⟨0⟩ s' k = true ∧ k ∉ p.placeholders.map Prod.fst) ∧
    ∃ p s', compile? cx s ⟨0⟩ ⟨undeclared, undeclared, .any⟩ = some (.ok (p, s')) ∧
      p.firstOrder.renumber (holeOf p.placeholders) ≠ p.term := by
  intro cx f nested undeclared s s₂
  constructor
  · let p : Pattern :=
      ⟨⟨nested, nested, .any⟩, nested, .fixed, f [.hole 2 [.hole 1 []]], [(2, 0)]⟩
    have inner : (Term.hole 1 []).Over s₂.Declares := Term.over_hole.2 ⟨⟨_, rfl, rfl⟩, by simp⟩
    have outer : (Term.hole 0 [.hole 1 []]).Over s₂.Declares :=
      Term.over_hole.2 ⟨⟨_, rfl, rfl⟩, List.forall_mem_singleton.2 inner⟩
    have declared : nested.Over s₂.Declares :=
      Term.over_mk_const.2 (List.forall_mem_singleton.2 outer)
    exact ⟨p, (s₂.fresh 1 none .placeholder).2, rfl, declared, 1, by decide +kernel⟩
  · let p : Pattern :=
      ⟨⟨undeclared, undeclared, .any⟩, undeclared, .fixed, f [.hole 1 [], .hole 1 []], [(1, 0)]⟩
    exact ⟨p, (s.fresh 1 none .placeholder).2, rfl, by decide +kernel⟩

end

end Pattern

end KeyedMatching
