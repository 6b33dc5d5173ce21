import KeyedMatching.Term.Sharing
import Mathlib.Data.List.Perm.Subperm
import Mathlib.Data.Set.Function
import Mathlib.Logic.Relation
import Mathlib.Order.Interval.Set.Defs

/-!
# Stored once

What a bank promises to whoever builds terms in it, whatever the hash.

* `Bank.Sound`: nodes, index and counter are in step, children come before their nodes, and
  applications are flat;
* `Bank.Sound.insert`, `Bank.Sound.intern_spec`: a new node keeps a bank sound, and what it holds,
  if there is a number left for it;
* `Bank.Sound.term?_read`, `Bank.Sound.read_injOn`: every number stands for a term, two numbers for
  two;
* `Bank.Sound.built_of_make`: what one call does;
* `Bank.Sound.add_read`: a term that is there is found, and nothing is stored for it;
* `Bank.Calls.stored_once`: what holds after any calls, as long as there are numbers for all nodes;
* `Bank.Calls.number_given_twice`: after that a number is given out for two terms.
-/

namespace KeyedMatching

namespace Bank

theorem lt_length {b : Bank} {id : Nat} {n : BankNode} (h : b.node? id = some n) :
    id < b.nodes.length :=
  (List.getElem?_eq_some_iff.1 h).1

theorem node?_of_lt {b : Bank} {id : Nat} (h : id < b.nodes.length) : ∃ n, b.node? id = some n :=
  ⟨_, List.getElem?_eq_getElem h⟩

theorem length_flatten_set {α : Type} {parts : List (List α)} {i : Nat} (h : i < parts.length)
    (a : α) : (parts.set i (a :: parts[i])).flatten.length = parts.flatten.length + 1 := by
  induction parts generalizing i with
  | nil => cases h
  | cons part parts ih =>
    cases i with
    | zero =>
      simp only [List.set_cons_zero, List.getElem_cons_zero, List.flatten_cons,
        List.length_append, List.length_cons]
      omega
    | succ i =>
      have rest := ih (Nat.lt_of_succ_lt_succ h)
      simp only [List.set_cons_succ, List.getElem_cons_succ, List.flatten_cons,
        List.length_append, rest]
      omega

section
variable [Hashable BankNode]

/-- The nodes, the index and the counter are in step, the children of a node have smaller numbers,
and no application is the head of one or has no arguments. -/
structure Sound (b : Bank) : Prop where
  counted : b.next = b.nodes.length % Text.bound32
  indexed : ∀ n id, b.number? n = some id ↔ b.node? id = some n
  below : ∀ id n, b.node? id = some n → ∀ c ∈ n.children, c < id
  flat : ∀ id h xs, b.node? id = some (.app h xs) →
    xs ≠ [] ∧ ∀ g ys, b.node? h ≠ some (.app g ys)

theorem sound_empty : Sound {} where
  counted := rfl
  indexed n id := by simp [number?, node?]
  below id n h := by simp [node?] at h
  flat id h xs p := by simp [node?] at p

section
variable {b : Bank}

theorem Sound.next_eq (sound : b.Sound) (room : b.nodes.length < Text.bound32) :
    b.next = b.nodes.length :=
  sound.counted.trans (Nat.mod_eq_of_lt room)

/-! ## New nodes -/

theorem Sound.nodes_insert (sound : b.Sound) (room : b.nodes.length < Text.bound32) (n : BankNode) :
    (b.insert n).nodes = b.nodes ++ [n] := by
  simp [insert, sound.next_eq room, List.rightpad]

theorem Sound.node?_insert (sound : b.Sound) (room : b.nodes.length < Text.bound32) (n : BankNode)
    (id : Nat) :
    (b.insert n).node? id = if id = b.nodes.length then some n else b.node? id := by
  simp only [node?, sound.nodes_insert room]
  rcases Nat.lt_trichotomy id b.nodes.length with lt | rfl | gt
  · simp [List.getElem?_append_left lt, Nat.ne_of_lt lt]
  · simp
  · rw [if_neg (Nat.ne_of_gt gt), List.getElem?_eq_none (by rw [List.length_append]; exact gt),
      List.getElem?_eq_none (Nat.le_of_lt gt)]

theorem number?_insert (n m : BankNode) :
    (b.insert n).number? m = if m = n then some b.next else b.number? m := by
  have shard : (b.insert n).shards[shardOf m] =
      if shardOf n = shardOf m then (n, b.next) :: b.shards[shardOf n]
      else b.shards[shardOf m] := by
    simp only [insert, Fin.getElem_fin, Vector.getElem_set, Fin.ext_iff]
  rw [number?, shard]
  by_cases same : m = n
  · simp [same]
  · have other : (m == n) = false := beq_eq_false_iff_ne.2 same
    split
    · next here => simp [List.lookup_cons, other, number?, here]
    · simp [number?]

/-- A bank stays sound with a new node over stored ones. -/
theorem Sound.insert (sound : b.Sound) (room : b.nodes.length < Text.bound32) {n : BankNode}
    (new : b.number? n = none) (stored : ∀ c ∈ n.children, c < b.nodes.length)
    (flat : ∀ h xs, n = .app h xs → xs ≠ [] ∧ ∀ g ys, b.node? h ≠ some (.app g ys)) :
    (b.insert n).Sound where
  counted := by
    rw [sound.nodes_insert room, List.length_append, List.length_singleton, ← sound.next_eq room]
    rfl
  indexed m id := by
    rw [number?_insert, sound.node?_insert room, sound.next_eq room]
    by_cases same : m = n
    · subst same
      by_cases last : id = b.nodes.length
      · simp [last]
      · have absent : b.node? id ≠ some m := fun h => by
          have found := (sound.indexed m id).2 h
          rw [new] at found
          cases found
        simp [last, absent, Ne.symm last]
    · by_cases last : id = b.nodes.length
      · have absent : b.number? m ≠ some id := fun h =>
          Nat.ne_of_lt (lt_length ((sound.indexed m id).1 h)) last
        rw [if_neg same, if_pos last]
        exact ⟨fun h => absurd h absent, fun h => absurd (Option.some.inj h).symm same⟩
      · simp [same, last, sound.indexed]
  below id m h := by
    rw [sound.node?_insert room] at h
    split at h
    · next last =>
      cases h
      rw [last]
      exact stored
    · exact sound.below id m h
  flat id h xs p := by
    have old (same : h < b.nodes.length) (flat : ∀ g ys, b.node? h ≠ some (.app g ys)) (g : Nat)
        (ys : List Nat) : (b.insert n).node? h ≠ some (.app g ys) := by
      rw [sound.node?_insert room, if_neg (Nat.ne_of_lt same)]
      exact flat g ys
    rw [sound.node?_insert room] at p
    split at p
    · cases p
      obtain ⟨some', head⟩ := flat h xs rfl
      exact ⟨some', old (stored h List.mem_cons_self) head⟩
    · obtain ⟨some', head⟩ := sound.flat id h xs p
      have lower := sound.below id _ p h List.mem_cons_self
      exact ⟨some', old (Nat.lt_trans lower (lt_length p)) head⟩

/-! ## Numbers left -/

theorem entered_insert (b : Bank) (n : BankNode) : (b.insert n).entered = b.entered + 1 := by
  have inside : (shardOf n).val < b.shards.toList.length := by
    rw [Vector.length_toList]
    exact (shardOf n).isLt
  have longer := length_flatten_set inside (n, b.next)
  rw [Vector.getElem_toList] at longer
  rw [entered, entered, ← longer, Bank.insert, Vector.toList_set]
  rfl

theorem entered_intern (b : Bank) (n : BankNode) : b.entered ≤ (intern n b).2.entered := by
  cases known : b.number? n with
  | some id => rw [intern, known]
  | none =>
    rw [intern, known]
    change b.entered ≤ (b.insert n).entered
    rw [entered_insert]
    exact Nat.le_succ _

/-- Every node was entered. -/
theorem Sound.length_le_entered (sound : b.Sound) : b.nodes.length ≤ b.entered := by
  have listed : List.range b.nodes.length ⊆ b.shards.toList.flatten.map Prod.snd := by
    intro id h
    obtain ⟨n, here⟩ := node?_of_lt (List.mem_range.1 h)
    have found := (sound.indexed n id).2 here
    obtain ⟨before, after, split, -⟩ := List.lookup_eq_some_iff.1 found
    have entry : (n, id) ∈ b.shards[shardOf n] := by simp [split]
    have part : b.shards[shardOf n] ∈ b.shards.toList := by simp
    exact List.mem_map_of_mem (List.mem_flatten_of_mem part entry)
  have fewer := (List.subperm_of_subset List.nodup_range listed).length_le
  rwa [List.length_range, List.length_map] at fewer

/-! ## Finding or adding -/

/-- What the first bank holds, the second holds under the same number. -/
def Keeps (b b' : Bank) : Prop :=
  ∀ id n, b.node? id = some n → b'.node? id = some n

theorem Sound.intern_of_node? (sound : b.Sound) {id : Nat} {n : BankNode}
    (h : b.node? id = some n) : intern n b = (id, b) := by
  rw [intern, (sound.indexed n id).2 h]

/-- The node that is given out a number is held under it. -/
theorem Sound.intern_spec (sound : b.Sound) {n : BankNode}
    (stored : ∀ c ∈ n.children, c < b.nodes.length)
    (flat : ∀ h xs, n = .app h xs → xs ≠ [] ∧ ∀ g ys, b.node? h ≠ some (.app g ys))
    (room : (intern n b).2.entered ≤ Text.bound32) :
    (intern n b).2.Sound ∧ b.Keeps (intern n b).2 ∧
      (intern n b).2.node? (intern n b).1 = some n := by
  cases known : b.number? n with
  | some id =>
    have here := (sound.indexed n id).1 known
    rw [sound.intern_of_node? here]
    exact ⟨sound, fun _ _ h => h, here⟩
  | none =>
    have run : intern n b = (b.next, b.insert n) := by rw [intern, known]
    rw [run] at room ⊢
    rw [entered_insert] at room
    have left : b.nodes.length < Text.bound32 := by
      have := sound.length_le_entered
      omega
    refine ⟨sound.insert left known stored flat, fun id m h => ?_, ?_⟩
    · rw [sound.node?_insert left, if_neg (Nat.ne_of_lt (lt_length h)), h]
    · rw [sound.node?_insert left, if_pos (sound.next_eq left)]

end

end

/-! ## Terms of nodes -/

end Bank

/-- The term that a node stands for when each number stands for a term. -/
def BankNode.term (read : Nat → Term) : BankNode → Term
  | .rel i => .rel i
  | .sort n => .sort n
  | .const c => .const c
  | .hole k xs => .hole k (xs.map read)
  | .app h xs => (read h).apply (xs.map read)
  | .pi a b => .pi (read a) (read b)
  | .lam a b => .lam (read a) (read b)
  | .letIn v a b => .ofHead (.letIn (read v) (read a) (read b))
  | .cast t a => .ofHead (.cast (read t) (read a))
  | .case r s bs => .ofHead (.case (read r) (read s) (bs.map read))
  | .fix i as bs => .ofHead (.fix i (as.map read) (bs.map read))

/-- The node at the top of a term when each term has a number. -/
def BankNode.ofTerm (number : Term → Nat) : Term → BankNode
  | .mk h (x :: xs) => .app (number (.ofHead h)) (number x :: xs.map number)
  | .mk (.rel i) [] => .rel i
  | .mk (.sort n) [] => .sort n
  | .mk (.const c) [] => .const c
  | .mk (.hole k xs) [] => .hole k (xs.map number)
  | .mk (.pi a b) [] => .pi (number a) (number b)
  | .mk (.lam a b) [] => .lam (number a) (number b)
  | .mk (.letIn v a b) [] => .letIn (number v) (number a) (number b)
  | .mk (.cast t a) [] => .cast (number t) (number a)
  | .mk (.case r s bs) [] => .case (number r) (number s) (bs.map number)
  | .mk (.fix i as bs) [] => .fix i (as.map number) (bs.map number)

namespace Bank

section
variable {child : Nat → Option Term} {read : Nat → Term} {xs : List Nat}

theorem mapM_eq (all : ∀ x ∈ xs, child x = some (read x)) :
    xs.mapM child = some (xs.map read) := by
  induction xs with
  | nil => rfl
  | cons x xs ih =>
    obtain ⟨first, others⟩ := List.forall_mem_cons.1 all
    simp [first, ih others]

/-- A node stands for a term as soon as its children do. -/
theorem nodeTerm?_eq {n : BankNode} (all : ∀ c ∈ n.children, child c = some (read c)) :
    nodeTerm? child n = some (n.term read) := by
  cases n <;> simp only [BankNode.children, List.forall_mem_cons, List.forall_mem_append] at all
  case rel | sort | const => rfl
  case hole k xs => simp [nodeTerm?, BankNode.term, mapM_eq all]
  case app h xs => simp [nodeTerm?, BankNode.term, all.1, mapM_eq all.2]
  case pi a b | lam a b | cast a b => simp [nodeTerm?, BankNode.term, all.1, all.2.1]
  case letIn v a b => simp [nodeTerm?, BankNode.term, all.1, all.2.1, all.2.2.1]
  case case r s bs => simp [nodeTerm?, BankNode.term, all.1, all.2.1, mapM_eq all.2.2]
  case fix i as bs => simp [nodeTerm?, BankNode.term, mapM_eq all.1, mapM_eq all.2]

theorem term_congr {read' : Nat → Term} {n : BankNode}
    (same : ∀ c ∈ n.children, read c = read' c) : n.term read = n.term read' := by
  have one : nodeTerm? (fun c => some (read c)) n = some (n.term read) :=
    nodeTerm?_eq fun _ _ => rfl
  have two : nodeTerm? (fun c => some (read c)) n = some (n.term read') :=
    nodeTerm?_eq fun c hc => congrArg some (same c hc)
  exact Option.some.inj (one.symm.trans two)

theorem exists_ofHead {t : Term} (bare : t.args = []) : ∃ h, t = .ofHead h := by
  have whole := Term.ofHead_apply_args t
  rw [bare, Term.apply_nil] at whole
  exact ⟨t.head, whole.symm⟩

theorem map_back {number : Term → Nat} (back : ∀ x ∈ xs, number (read x) = x) :
    (xs.map read).map number = xs := by
  rw [List.map_map]
  exact (List.map_congr_left back).trans (List.map_id xs)

/-- A node can be told from its term, if its children can from theirs. -/
theorem ofTerm_term {number : Term → Nat} {n : BankNode}
    (back : ∀ c ∈ n.children, number (read c) = c)
    (flat : ∀ h xs, n = .app h xs → xs ≠ [] ∧ (read h).args = []) :
    BankNode.ofTerm number (n.term read) = n := by
  cases n <;> simp only [BankNode.children, List.forall_mem_cons, List.forall_mem_append] at back
  case rel | sort | const => rfl
  case hole k xs => simp [BankNode.term, BankNode.ofTerm, map_back back]
  case app h xs =>
    obtain ⟨some', bare⟩ := flat h xs rfl
    obtain ⟨x, xs, rfl⟩ := List.exists_cons_of_ne_nil some'
    have list := map_back back.2
    have head := back.1
    obtain ⟨top, whole⟩ := exists_ofHead bare
    rw [whole] at head
    simp only [BankNode.term, whole, Term.apply, List.nil_append, List.map_cons, BankNode.ofTerm]
    rw [head]
    exact congrArg _ list
  case pi a b | lam a b | cast a b => simp [BankNode.term, BankNode.ofTerm, back.1, back.2.1]
  case letIn v a b => simp [BankNode.term, BankNode.ofTerm, back.1, back.2.1, back.2.2.1]
  case case r s bs => simp [BankNode.term, BankNode.ofTerm, back.1, back.2.1, map_back back.2.2]
  case fix i as bs => simp [BankNode.term, BankNode.ofTerm, map_back back.1, map_back back.2]

end

/-! ## What is read back -/

/-- The term that a number stands for; a number not given out may stand for any. -/
def read (b : Bank) (id : Nat) : Term :=
  (b.term? id).getD (.rel 0)

section
variable [Hashable BankNode] {b b' : Bank}

theorem Sound.termWithin_eq (sound : b.Sound) {id : Nat} {n : BankNode} (h : b.node? id = some n)
    {k : Nat} (enough : id < k) : b.termWithin k id = some (n.term b.read) := by
  induction id using Nat.strong_induction_on generalizing n k with
  | _ id ih =>
  obtain ⟨k, rfl⟩ : ∃ m, k = m + 1 := ⟨k - 1, by omega⟩
  simp only [termWithin, h, Option.bind_some]
  refine nodeTerm?_eq fun c hc => ?_
  have lower := sound.below id n h c hc
  obtain ⟨m, hm⟩ := node?_of_lt (Nat.lt_trans lower (lt_length h))
  -- `read` gives a child the fuel that `term?` does, here there may be more
  have own : b.read c = m.term b.read := by
    rw [read, term?, ih c lower hm (Nat.lt_succ_self c)]
    rfl
  rw [own, ih c lower hm (by omega)]

theorem Sound.term?_eq (sound : b.Sound) {id : Nat} {n : BankNode} (h : b.node? id = some n) :
    b.term? id = some (n.term b.read) :=
  sound.termWithin_eq h (Nat.lt_succ_self id)

theorem Sound.read_eq (sound : b.Sound) {id : Nat} {n : BankNode} (h : b.node? id = some n) :
    b.read id = n.term b.read := by
  rw [read, sound.term?_eq h]
  rfl

theorem Sound.term?_read (sound : b.Sound) {id : Nat} (h : id < b.nodes.length) :
    b.term? id = some (b.read id) := by
  obtain ⟨n, here⟩ := node?_of_lt h
  rw [sound.term?_eq here, sound.read_eq here]

/-- A number keeps its term while the bank grows. -/
theorem Sound.read_keeps (sound : b.Sound) (sound' : b'.Sound) (keeps : b.Keeps b') {id : Nat}
    (h : id < b.nodes.length) : b'.read id = b.read id := by
  induction id using Nat.strong_induction_on with
  | _ id ih =>
  obtain ⟨n, here⟩ := node?_of_lt h
  rw [sound.read_eq here, sound'.read_eq (keeps id n here)]
  refine term_congr fun c hc => ?_
  have lower := sound.below id n here c hc
  exact ih c lower (Nat.lt_trans lower h)

theorem Sound.args_read (sound : b.Sound) {h : Nat} (lt : h < b.nodes.length)
    (flat : ∀ g ys, b.node? h ≠ some (.app g ys)) : (b.read h).args = [] := by
  obtain ⟨n, here⟩ := node?_of_lt lt
  rw [sound.read_eq here]
  cases n
  case app g ys => exact absurd here (flat g ys)
  all_goals rfl

/-- Below any number, no two numbers stand for one term: the node of a number can be made out from
its term, and one node has one number. -/
theorem Sound.read_injOn (sound : b.Sound) (k : Nat) (le : k ≤ b.nodes.length) :
    Set.InjOn b.read (Set.Iio k) := by
  induction k with
  | zero => exact fun i hi => absurd hi (Nat.not_lt_zero i)
  | succ k ih =>
    have before := ih (Nat.le_of_succ_le le)
    have back := before.leftInvOn_invFunOn
    have node {i : Nat} (lt : i < k + 1) {n : BankNode} (here : b.node? i = some n) :
        BankNode.ofTerm (Function.invFunOn b.read (Set.Iio k)) (b.read i) = n := by
      rw [sound.read_eq here]
      have below := sound.below i n here
      refine ofTerm_term (fun c hc => back ?_) fun h xs top => ?_
      · exact Nat.lt_of_lt_of_le (below c hc) (Nat.le_of_lt_succ lt)
      · subst top
        obtain ⟨some', flat⟩ := sound.flat i h xs here
        have lower := Nat.lt_trans (below h List.mem_cons_self) (lt_length here)
        exact ⟨some', sound.args_read lower flat⟩
    intro i hi j hj same
    obtain ⟨n, hn⟩ := node?_of_lt (Nat.lt_of_lt_of_le hi le)
    obtain ⟨m, hm⟩ := node?_of_lt (Nat.lt_of_lt_of_le hj le)
    have one : n = m := by rw [← node hi hn, same, node hj hm]
    have two := (sound.indexed n i).2 hn
    rw [one, (sound.indexed m j).2 hm] at two
    exact (Option.some.inj two).symm

theorem Sound.eq_iff_term? (sound : b.Sound) {i j : Nat} (hi : i < b.nodes.length)
    (hj : j < b.nodes.length) :
    i = j ↔ b.term? i = b.term? j := by
  refine ⟨fun same => by rw [same], fun same => ?_⟩
  rw [sound.term?_read hi, sound.term?_read hj] at same
  exact sound.read_injOn b.nodes.length (Nat.le_refl _) hi hj (Option.some.inj same)

end

/-! ## Building -/

section
variable {b : Bank}

/-- A number without a stored application is its own spine. -/
theorem spine_of_flat {h : Nat} (flat : ∀ g ys, b.node? h ≠ some (.app g ys)) :
    b.spine h = (h, []) := by
  rw [spine]
  split
  · next g ys here => exact absurd here (flat g ys)
  · rfl

theorem spine_of_app {h g : Nat} {ys : List Nat} (here : b.node? h = some (.app g ys)) :
    b.spine h = (g, ys) := by
  rw [spine, here]

end

section
variable [Hashable BankNode] {b : Bank}

/-- Building a node over stored terms keeps the bank sound and what it holds, and gives a number for
the term that was built. -/
structure Built (n : BankNode) (b : Bank) (id : Nat) (b' : Bank) : Prop where
  sound : b'.Sound
  keeps : b.Keeps b'
  stored : id < b'.nodes.length
  reads : b'.read id = n.term b.read

theorem Sound.built_of_intern (sound : b.Sound) {n : BankNode}
    (stored : ∀ c ∈ n.children, c < b.nodes.length)
    (flat : ∀ h xs, n = .app h xs → xs ≠ [] ∧ ∀ g ys, b.node? h ≠ some (.app g ys))
    (room : (intern n b).2.entered ≤ Text.bound32) :
    Built n b (intern n b).1 (intern n b).2 := by
  obtain ⟨sound', keeps, here⟩ := sound.intern_spec stored flat room
  refine ⟨sound', keeps, lt_length here, ?_⟩
  rw [sound'.read_eq here]
  exact term_congr fun c hc => sound.read_keeps sound' keeps (stored c hc)

/-- To apply a number is to add to its spine. -/
theorem app_of_spine {h g : Nat} {xs ys : List Nat} (some' : xs ≠ [])
    (spine : b.spine h = (g, ys)) : app h xs b = intern (.app g (ys ++ xs)) b := by
  obtain ⟨x, xs, rfl⟩ := List.exists_cons_of_ne_nil some'
  change (app h (x :: xs)).run b = (intern (.app g (ys ++ x :: xs))).run b
  by_cases nested : ∃ k zs, b.node? h = some (.app k zs)
  · obtain ⟨k, zs, here⟩ := nested
    cases (spine_of_app here).symm.trans spine
    simp [app, here]
  · simp only [not_exists] at nested
    cases (spine_of_flat nested).symm.trans spine
    simp [app]

theorem Sound.spine_spec (sound : b.Sound) {h : Nat} (lt : h < b.nodes.length) :
    ∃ g ys, b.spine h = (g, ys) ∧ (∀ c ∈ g :: ys, c < b.nodes.length) ∧
      (∀ k zs, b.node? g ≠ some (.app k zs)) ∧ b.read h = (b.read g).apply (ys.map b.read) := by
  by_cases nested : ∃ g ys, b.node? h = some (.app g ys)
  · obtain ⟨g, ys, here⟩ := nested
    refine ⟨g, ys, spine_of_app here, fun c hc => ?_, (sound.flat h g ys here).2, ?_⟩
    · exact Nat.lt_trans (sound.below h _ here c hc) lt
    · exact sound.read_eq here
  · simp only [not_exists] at nested
    exact ⟨h, [], spine_of_flat nested, by simpa using lt, nested, by simp⟩

/-- The spine of a number makes it up again. -/
theorem Sound.app_spine (sound : b.Sound) (id : Nat) :
    app (b.spine id).1 (b.spine id).2 b = (id, b) := by
  by_cases nested : ∃ g ys, b.node? id = some (.app g ys)
  · obtain ⟨g, ys, here⟩ := nested
    obtain ⟨some', flat⟩ := sound.flat id g ys here
    rw [spine_of_app here, app_of_spine some' (spine_of_flat flat)]
    exact sound.intern_of_node? here
  · simp only [not_exists] at nested
    rw [spine_of_flat nested]
    rfl

theorem Sound.built_of_app (sound : b.Sound) {h : Nat} {xs : List Nat}
    (stored : ∀ c ∈ h :: xs, c < b.nodes.length)
    (room : (app h xs b).2.entered ≤ Text.bound32) :
    Built (.app h xs) b (app h xs b).1 (app h xs b).2 := by
  obtain ⟨lt, rest⟩ := List.forall_mem_cons.1 stored
  by_cases none : xs = []
  · subst none
    exact ⟨sound, fun _ _ here => here, lt, (Term.apply_nil (b.read h)).symm⟩
  · obtain ⟨g, ys, spine, parts, flat, whole⟩ := sound.spine_spec lt
    obtain ⟨top, before⟩ := List.forall_mem_cons.1 parts
    rw [app_of_spine none spine] at room ⊢
    have built := sound.built_of_intern (n := .app g (ys ++ xs))
      (List.forall_mem_cons.2 ⟨top, List.forall_mem_append.2 ⟨before, rest⟩⟩)
      (fun k zs same => by cases same; exact ⟨by simp [none], flat⟩) room
    refine ⟨built.sound, built.keeps, built.stored, built.reads.trans ?_⟩
    simp only [BankNode.term]
    rw [List.map_append, ← Term.apply_apply, ← whole]

theorem Sound.built_of_make (sound : b.Sound) {n : BankNode}
    (stored : ∀ c ∈ n.children, c < b.nodes.length)
    (room : (make n b).2.entered ≤ Text.bound32) : Built n b (make n b).1 (make n b).2 := by
  cases n
  case app h xs => exact sound.built_of_app stored room
  all_goals exact sound.built_of_intern stored (fun _ _ same => nomatch same) room

theorem entered_make (b : Bank) (n : BankNode) : b.entered ≤ (make n b).2.entered := by
  cases n
  case app h xs =>
    by_cases none : xs = []
    · subst none
      exact Nat.le_refl _
    · change b.entered ≤ (app h xs b).2.entered
      rw [app_of_spine none rfl]
      exact entered_intern b _
  all_goals exact entered_intern b _

end

/-! ## Whole terms -/

/-- A number stands for a term. -/
structure Stands (b : Bank) (id : Nat) (t : Term) : Prop where
  stored : id < b.nodes.length
  reads : b.read id = t

theorem bind_of_eq {α β : Type} {b : Bank} {x : StateM Bank α} {a : α} {f : α → StateM Bank β}
    (h : x b = (a, b)) : (x >>= f) b = f a b := by
  change f (x b).1 (x b).2 = f a b
  rw [h]

section
variable [Hashable BankNode] {b : Bank}

theorem add_ofHead (h : Head) (b : Bank) : add (.ofHead h) b = addHead h b := by
  rw [Term.ofHead, add]
  rfl

theorem addAll_map {xs : List Nat} (each : ∀ x ∈ xs, add (b.read x) b = (x, b)) :
    addAll (xs.map b.read) b = (xs, b) := by
  induction xs with
  | nil => rfl
  | cons x xs ih =>
    obtain ⟨first, others⟩ := List.forall_mem_cons.1 each
    rw [List.map_cons, addAll, bind_of_eq first, bind_of_eq (ih others)]
    rfl

/-- A term that is there is found under its number, and nothing is stored for it. -/
theorem Sound.add_read (sound : b.Sound) {id : Nat} (lt : id < b.nodes.length) :
    add (b.read id) b = (id, b) := by
  induction id using Nat.strong_induction_on with
  | _ id ih =>
  obtain ⟨n, here⟩ := node?_of_lt lt
  have found := sound.intern_of_node? here
  have child : ∀ c ∈ n.children, add (b.read c) b = (c, b) := fun c hc =>
    have lower := sound.below id n here c hc
    ih c lower (Nat.lt_trans lower lt)
  rw [sound.read_eq here]
  cases n <;> simp only [BankNode.children, List.forall_mem_cons, List.forall_mem_append] at child
  case rel i | sort i | const i => exact found
  case app g ys =>
    -- The head is no application, so that it is added as a head.
    obtain ⟨some', flat⟩ := sound.flat id g ys here
    have bare := sound.args_read (Nat.lt_trans (sound.below id _ here g List.mem_cons_self) lt) flat
    obtain ⟨top, whole⟩ := exists_ofHead bare
    obtain ⟨head, args⟩ := child
    rw [whole, add_ofHead] at head
    rw [BankNode.term, whole, Term.ofHead, Term.apply, List.nil_append, add, bind_of_eq head,
      bind_of_eq (addAll_map args)]
    exact (app_of_spine some' (spine_of_flat flat)).trans found
  case hole k xs =>
    rw [BankNode.term, Term.hole, add_ofHead, addHead, bind_of_eq (addAll_map child)]
    exact found
  case pi x y | lam x y | cast x y =>
    rw [BankNode.term]
    refine (add_ofHead _ b).trans ?_
    rw [addHead, bind_of_eq child.1, bind_of_eq child.2.1]
    exact found
  case letIn v x y =>
    rw [BankNode.term, add_ofHead, addHead, bind_of_eq child.1, bind_of_eq child.2.1,
      bind_of_eq child.2.2.1]
    exact found
  case case r x ys =>
    rw [BankNode.term, add_ofHead, addHead, bind_of_eq child.1, bind_of_eq child.2.1,
      bind_of_eq (addAll_map child.2.2)]
    exact found
  case fix i xs ys =>
    rw [BankNode.term, add_ofHead, addHead, bind_of_eq (addAll_map child.1),
      bind_of_eq (addAll_map child.2)]
    exact found

end

/-! ## Calls -/

/-- Calls on a bank that is empty before them: the nodes asked for in order, each with the number it
got, and the bank after the last. -/
structure Calls where
  log : List (BankNode × Nat) := []
  bank : Bank := {}

namespace Calls

/-- The numbers given out. -/
def returned (c : Calls) : List Nat :=
  c.log.map Prod.snd

theorem mem_returned {c : Calls} {id : Nat} : id ∈ c.returned ↔ ∃ n, (n, id) ∈ c.log := by
  simp [returned]

section
variable [Hashable BankNode] {c c' : Calls}

/-- Ask for one more node. -/
def call (c : Calls) (n : BankNode) : Calls where
  log := c.log ++ [(n, (make n c.bank).1)]
  bank := (make n c.bank).2

/-- One more call, over numbers that were given out. -/
def Next (c c' : Calls) : Prop :=
  ∃ n, (∀ k ∈ n.children, k ∈ c.returned) ∧ c' = c.call n

/-- The bank is sound, and each number given out stands for the term that was asked for. -/
structure Answered (c : Calls) : Prop where
  sound : c.bank.Sound
  stored : ∀ n id, (n, id) ∈ c.log → ∀ k ∈ id :: n.children, k < c.bank.nodes.length
  reads : ∀ n id, (n, id) ∈ c.log → c.bank.read id = n.term c.bank.read

theorem answered_start : Answered {} where
  sound := sound_empty
  stored _ _ h := nomatch h
  reads _ _ h := nomatch h

theorem Answered.lt_length (answered : c.Answered) {id : Nat} (h : id ∈ c.returned) :
    id < c.bank.nodes.length := by
  obtain ⟨n, here⟩ := mem_returned.1 h
  exact answered.stored n id here id List.mem_cons_self

theorem entered_next (next : c.Next c') : c.bank.entered ≤ c'.bank.entered := by
  obtain ⟨n, _, rfl⟩ := next
  exact entered_make c.bank n

theorem Answered.next (answered : c.Answered) (next : c.Next c')
    (room : c'.bank.entered ≤ Text.bound32) :
    c'.Answered ∧ c.bank.Keeps c'.bank := by
  obtain ⟨n, given, rfl⟩ := next
  have stored (k : Nat) (h : k ∈ n.children) : k < c.bank.nodes.length :=
    answered.lt_length (given k h)
  have built := answered.sound.built_of_make stored room
  have wider {k : Nat} (h : k < c.bank.nodes.length) : k < (c.call n).bank.nodes.length := by
    obtain ⟨m, here⟩ := node?_of_lt h
    exact Bank.lt_length (built.keeps k m here)
  have same {k : Nat} (h : k < c.bank.nodes.length) : (c.call n).bank.read k = c.bank.read k :=
    answered.sound.read_keeps built.sound built.keeps h
  refine ⟨⟨built.sound, fun m id h => ?_, fun m id h => ?_⟩, built.keeps⟩
  all_goals rcases List.mem_append.1 h with old | new
  · exact fun k hk => wider (answered.stored m id old k hk)
  · cases List.mem_singleton.1 new
    exact List.forall_mem_cons.2 ⟨built.stored, fun k hk => wider (stored k hk)⟩
  · obtain ⟨lt, below⟩ := List.forall_mem_cons.1 (answered.stored m id old)
    rw [same lt, answered.reads m id old]
    exact term_congr fun k hk => (same (below k hk)).symm
  · cases List.mem_singleton.1 new
    exact built.reads.trans (term_congr fun k hk => (same (stored k hk)).symm)

theorem Answered.after (answered : c.Answered) (run : Relation.ReflTransGen Next c c')
    (room : c'.bank.entered ≤ Text.bound32) :
    c'.Answered ∧ c.bank.Keeps c'.bank := by
  induction run with
  | refl => exact ⟨answered, fun _ _ here => here⟩
  | tail _ last ih =>
    obtain ⟨before, kept⟩ := ih (Nat.le_trans (entered_next last) room)
    obtain ⟨answered', keeps⟩ := before.next last room
    exact ⟨answered', fun id n here => keeps id n (kept id n here)⟩

/-- The numbers given out stand for terms, each for the one that was asked for, and the nodes behind
them stay. -/
structure StoredOnce (c : Calls) : Prop where
  /-- A number stands for the term that was asked for. -/
  denotes : ∀ n id, (n, id) ∈ c.log →
    ∃ t, c.bank.term? id = some t ∧ nodeTerm? c.bank.term? n = some t
  /-- Two numbers are one exactly if they stand for one term. -/
  once : ∀ i ∈ c.returned, ∀ j ∈ c.returned, i = j ↔ c.bank.term? i = c.bank.term? j
  /-- A stored application has an argument, and its head is no application. -/
  flat : ∀ id h xs, c.bank.node? id = some (.app h xs) →
    xs ≠ [] ∧ ∀ g ys, c.bank.node? h ≠ some (.app g ys)
  /-- To apply twice is to apply once to all the arguments. -/
  joined : ∀ h xs ys i j k, (.app h xs, i) ∈ c.log → (.app i ys, j) ∈ c.log →
    (.app h (xs ++ ys), k) ∈ c.log → j = k
  /-- The head of a number applied to its arguments is the number, and nothing is stored for it. -/
  respined : ∀ id ∈ c.returned, app (c.bank.spine id).1 (c.bank.spine id).2 c.bank = (id, c.bank)
  /-- The children of a stored node have smaller numbers. -/
  descending : ∀ id n, c.bank.node? id = some n → ∀ k ∈ n.children, k < id
  /-- A number given out has a node, which is the same after any further calls, as long as there are
  numbers for all nodes. -/
  lasting : ∀ c', Relation.ReflTransGen Next c c' → c'.bank.entered ≤ Text.bound32 →
    ∀ id ∈ c.returned, ∃ n, c.bank.node? id = some n ∧ c'.bank.node? id = some n

theorem Answered.term?_eq (answered : c.Answered) {n : BankNode} {id : Nat} (h : (n, id) ∈ c.log) :
    c.bank.term? id = some (n.term c.bank.read) := by
  have lt := answered.stored n id h id List.mem_cons_self
  rw [answered.sound.term?_read lt, answered.reads n id h]

theorem Answered.joined (answered : c.Answered) {h i j k : Nat} {xs ys : List Nat}
    (one : (.app h xs, i) ∈ c.log) (two : (.app i ys, j) ∈ c.log)
    (all : (.app h (xs ++ ys), k) ∈ c.log) : j = k := by
  have hj := answered.lt_length (mem_returned.2 ⟨_, two⟩)
  have hk := answered.lt_length (mem_returned.2 ⟨_, all⟩)
  refine (answered.sound.eq_iff_term? hj hk).2 ?_
  rw [answered.term?_eq two, answered.term?_eq all]
  simp only [BankNode.term, answered.reads _ _ one]
  rw [Term.apply_apply, List.map_append]

/-- Whatever is asked of a bank over numbers that it gave out: numbers and terms correspond, the
applications are flat, children come first, and what was given out lasts. That is so as long as no
more nodes are stored than there are numbers. -/
theorem stored_once {c : Calls} (run : Relation.ReflTransGen Next {} c)
    (room : c.bank.entered ≤ Text.bound32) : c.StoredOnce := by
  obtain ⟨answered, -⟩ := answered_start.after run room
  exact {
    denotes := fun n id h => by
      refine ⟨n.term c.bank.read, answered.term?_eq h, nodeTerm?_eq fun k hk => ?_⟩
      exact answered.sound.term?_read (answered.stored n id h k (List.mem_cons_of_mem _ hk))
    once := fun i hi j hj =>
      answered.sound.eq_iff_term? (answered.lt_length hi) (answered.lt_length hj)
    flat := answered.sound.flat
    joined := fun _ _ _ _ _ _ one two all => answered.joined one two all
    respined := fun id _ => answered.sound.app_spine id
    descending := answered.sound.below
    lasting := fun c' more left id h => by
      obtain ⟨n, here⟩ := node?_of_lt (answered.lt_length h)
      exact ⟨n, here, (answered.after more left).2 id n here⟩ }

end

/-- A hash that enters every node in the same part of the index. -/
@[reducible]
def sameHash : Hashable BankNode :=
  ⟨fun _ => 0⟩

/-- A variable applied to another and then to a universe, and to both at once, all hashes being the
same. -/
theorem stored_once_applied : ∃ c : Calls, c.log =
    [(.rel 0, 0), (.rel 1, 1), (.sort 0, 2), (.app 0 [1], 3), (.app 3 [2], 4), (.app 0 [1, 2], 4)] ∧
      @StoredOnce sameHash c := by
  let := sameHash
  refine ⟨(((((call {} (.rel 0)).call (.rel 1)).call (.sort 0)).call (.app 0 [1])).call
    (.app 3 [2])).call (.app 0 [1, 2]), by decide, stored_once ?_ (by decide)⟩
  exact .tail (.tail (.tail (.tail (.tail (.tail .refl ⟨_, by decide, rfl⟩) ⟨_, by decide, rfl⟩)
    ⟨_, by decide, rfl⟩) ⟨_, by decide, rfl⟩) ⟨_, by decide, rfl⟩) ⟨_, by decide, rfl⟩

/-! ## Numbers run out -/

section
variable [Hashable BankNode]

/-- Ask for the first `k` variables, one after the other. -/
def askRels : Nat → Calls
  | 0 => {}
  | k + 1 => (askRels k).call (.rel k)

theorem run_askRels (k : Nat) : Relation.ReflTransGen Next {} (askRels k) := by
  induction k with
  | zero => exact .refl
  | succ k ih => exact .tail ih ⟨.rel k, fun _ h => (nomatch h), rfl⟩

theorem call_of_new {c : Calls} {n : BankNode} (new : c.bank.number? n = none)
    (plain : make n = intern n) :
    c.call n = ⟨c.log ++ [(n, c.bank.next)], c.bank.insert n⟩ := by
  rw [call, plain, intern, new]

/-- As long as there are numbers, each variable gets its own. -/
theorem askRels_spec {k : Nat} (room : k ≤ Text.bound32) :
    (askRels k).bank.Sound ∧ (askRels k).bank.nodes = (List.range k).map .rel ∧
      (askRels k).log = (List.range k).map fun i => (.rel i, i) := by
  induction k with
  | zero => exact ⟨sound_empty, rfl, rfl⟩
  | succ k ih =>
    obtain ⟨sound, nodes, log⟩ := ih (Nat.le_of_succ_le room)
    have count : (askRels k).bank.nodes.length = k := by simp [nodes]
    have left : (askRels k).bank.nodes.length < Text.bound32 := by omega
    have new : (askRels k).bank.number? (.rel k) = none := by
      rw [Option.eq_none_iff_forall_ne_some]
      intro id found
      have here := (sound.indexed _ _).1 found
      have lower := lt_length here
      rw [count] at lower
      simp [node?, nodes, lower] at here
      omega
    rw [askRels, call_of_new new rfl]
    refine ⟨sound.insert left new (fun _ h => nomatch h) fun _ _ h => (nomatch h), ?_, ?_⟩
    · simp [sound.nodes_insert left, nodes, List.range_succ]
    · simp [log, sound.next_eq left, count, List.range_succ]

end

/-- When all numbers were given out, the first is given out again, for another node, which takes the
place of the one that was there. -/
theorem number_given_twice : ∃ c c' : Calls, Relation.ReflTransGen Next {} c ∧ c.Next c' ∧
    (.rel 0, 0) ∈ c.log ∧ c.bank.node? 0 = some (.rel 0) ∧
    (.sort 0, 0) ∈ c'.log ∧ c'.bank.node? 0 = some (.sort 0) := by
  obtain ⟨sound, nodes, log⟩ := askRels_spec (Nat.le_refl Text.bound32)
  have some_number : 0 < Text.bound32 := by decide
  have again : (askRels Text.bound32).bank.next = 0 := by
    rw [sound.counted, nodes, List.length_map, List.length_range, Nat.mod_self]
  have new : (askRels Text.bound32).bank.number? (.sort 0) = none := by
    rw [Option.eq_none_iff_forall_ne_some]
    intro id found
    have here := (sound.indexed _ _).1 found
    simp [node?, nodes, List.getElem?_map] at here
  refine ⟨askRels Text.bound32, _, run_askRels _, ⟨.sort 0, fun _ h => (nomatch h), rfl⟩,
    ?_, ?_, ?_⟩
  · simp [log, some_number]
  · simp [node?, nodes, some_number]
  · have place : 0 < ((askRels Text.bound32).bank.nodes.rightpad 1 (.rel 0)).length := by
      simp only [List.rightpad, nodes, List.length_append, List.length_map, List.length_range]
      omega
    rw [call_of_new new rfl, again]
    simp only [node?, Bank.insert, again, List.getElem?_set_self place, List.mem_append,
      List.mem_singleton, or_true, and_self]

end Calls

end Bank

end KeyedMatching
