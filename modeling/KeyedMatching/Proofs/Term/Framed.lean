import KeyedMatching.Term.Traversal
import Mathlib.Data.List.Forall2

/-!
# Heads of one construction

`Head.Framed R h g`: the heads agree but for their children, and those are related by `R`. It is the
step by which a relation on terms goes through a term. `Head.Framed.comp` puts two such steps in a
row, and `Head.Framed.comp_at` says at which children.
-/

namespace KeyedMatching

/-- Two heads of one construction, the children of the first related to those of the second. -/
inductive Head.Framed (R : Term → Term → Prop) : Head → Head → Prop
  | rel (i : Nat) : Framed R (.rel i) (.rel i)
  | sort (n : Nat) : Framed R (.sort n) (.sort n)
  | const (c : String) : Framed R (.const c) (.const c)
  | hole {k xs ys} : List.Forall₂ R xs ys → Framed R (.hole k xs) (.hole k ys)
  | pi {a a' b b'} : R a a' → R b b' → Framed R (.pi a b) (.pi a' b')
  | lam {a a' b b'} : R a a' → R b b' → Framed R (.lam a b) (.lam a' b')
  | letIn {v v' a a' b b'} : R v v' → R a a' → R b b' → Framed R (.letIn v a b) (.letIn v' a' b')
  | cast {t t' a a'} : R t t' → R a a' → Framed R (.cast t a) (.cast t' a')
  | case {r r' c c' bs bs'} : R r r' → R c c' → List.Forall₂ R bs bs' →
    Framed R (.case r c bs) (.case r' c' bs')
  | fix {i as as' bs bs'} : List.Forall₂ R as as' → List.Forall₂ R bs bs' →
    Framed R (.fix i as bs) (.fix i as' bs')

/-- Related lists have related entries at the same positions. -/
theorem forall₂_getElem? {α : Type} {R : α → α → Prop} {xs ys : List α}
    (h : List.Forall₂ R xs ys) (i : Nat) : Option.Rel R xs[i]? ys[i]? := by
  induction h generalizing i with
  | nil => exact .none
  | cons hx _ ih =>
    cases i with
    | zero => exact .some hx
    | succ i => exact ih i

theorem related_of_getElem? {α : Type} {R : α → α → Prop} {xs ys : List α} {x y : α} {i : Nat}
    (h : List.Forall₂ R xs ys) (hx : xs[i]? = some x) (hy : ys[i]? = some y) : R x y := by
  have entry := forall₂_getElem? h i
  rw [hx, hy] at entry
  cases entry with
  | some related => exact related

/-- Two relations in a row, entry by entry; what comes of them may depend on the position. -/
theorem forall₂_comp_at {α : Type} {R S T : α → α → Prop} {xs ys zs : List α}
    (next : ∀ (i : Nat) (a b c : α), xs[i]? = some a → ys[i]? = some b → zs[i]? = some c →
      R a b → S b c → T a c)
    (first : List.Forall₂ R xs ys) (second : List.Forall₂ S ys zs) : List.Forall₂ T xs zs := by
  induction first generalizing zs with
  | nil =>
    cases second
    exact .nil
  | cons h _ ih =>
    cases second with
    | cons h' rest =>
      exact .cons (next 0 _ _ _ rfl rfl rfl h h')
        (ih (fun i a b c ha hb hc => next (i + 1) a b c ha hb hc) rest)

/-- Two relations in a row, entry by entry. -/
theorem forall₂_comp {α : Type} {R S T : α → α → Prop} {xs ys zs : List α}
    (next : ∀ a b c, R a b → S b c → T a c) (first : List.Forall₂ R xs ys)
    (second : List.Forall₂ S ys zs) : List.Forall₂ T xs zs :=
  forall₂_comp_at (fun _ a b c _ _ _ => next a b c) first second

/-- The children of a head in visiting order, without their binders. -/
def Head.parts (h : Head) : List Term :=
  h.children.map Prod.fst

theorem Head.parts_hole (k : Nat) (xs : List Term) : (Head.hole k xs).parts = xs := by
  simp [parts, children, Function.comp_def]

theorem Head.parts_case (r c : Term) (bs : List Term) :
    (Head.case r c bs).parts = r :: c :: bs := by
  simp [parts, children, Function.comp_def]

theorem Head.parts_fix (i : Nat) (as bs : List Term) : (Head.fix i as bs).parts = as ++ bs := by
  simp [parts, children, Function.comp_def]

namespace Head.Framed

variable {R S T : Term → Term → Prop} {f g h : Head}

theorem refl (refl : ∀ t, R t t) (h : Head) : Framed R h h := by
  have all (xs : List Term) : List.Forall₂ R xs xs := List.forall₂_same.2 fun x _ => refl x
  cases h with
  | rel i => exact .rel i
  | sort n => exact .sort n
  | const c => exact .const c
  | hole k xs => exact .hole (all xs)
  | pi a b => exact .pi (refl a) (refl b)
  | lam a b => exact .lam (refl a) (refl b)
  | letIn v a b => exact .letIn (refl v) (refl a) (refl b)
  | cast t a => exact .cast (refl t) (refl a)
  | case r c bs => exact .case (refl r) (refl c) (all bs)
  | fix i as bs => exact .fix (all as) (all bs)

/-- The relation may be read backwards. -/
theorem flip (framed : Framed R f g) : Framed (fun a b => R b a) g f := by
  cases framed with
  | rel i => exact .rel i
  | sort n => exact .sort n
  | const c => exact .const c
  | hole hxs => exact .hole hxs.flip
  | pi ha hb => exact .pi ha hb
  | lam ha hb => exact .lam ha hb
  | letIn hv ha hb => exact .letIn hv ha hb
  | cast ht ha => exact .cast ht ha
  | case hr hc hbs => exact .case hr hc hbs.flip
  | fix has hbs => exact .fix has.flip hbs.flip

theorem forall₂_parts (framed : Framed R f g) : List.Forall₂ R f.parts g.parts := by
  cases framed with
  | rel i => exact .nil
  | sort n => exact .nil
  | const c => exact .nil
  | hole hxs => rwa [parts_hole, parts_hole]
  | pi ha hb => exact .cons ha (.cons hb .nil)
  | lam ha hb => exact .cons ha (.cons hb .nil)
  | letIn hv ha hb => exact .cons ha (.cons hv (.cons hb .nil))
  | cast ht ha => exact .cons ha (.cons ht .nil)
  | case hr hc hbs =>
    rw [parts_case, parts_case]
    exact .cons hr (.cons hc hbs)
  | fix has hbs =>
    rw [parts_fix, parts_fix]
    exact List.rel_append has hbs

/-- Two relations in a row; what comes of them may depend on the child. -/
theorem comp_at
    (next : ∀ (i : Nat) (a b c : Term), f.parts[i]? = some a → g.parts[i]? = some b →
      h.parts[i]? = some c → R a b → S b c → T a c)
    (first : Framed R f g) (second : Framed S g h) : Framed T f h := by
  cases first with
  | rel i => cases second; exact .rel i
  | sort n => cases second; exact .sort n
  | const c => cases second; exact .const c
  | hole hxs =>
    cases second with
    | hole hys =>
      simp only [parts_hole] at next
      exact .hole (forall₂_comp_at next hxs hys)
  | pi ha hb =>
    cases second with
    | pi hc hd => exact .pi (next 0 _ _ _ rfl rfl rfl ha hc) (next 1 _ _ _ rfl rfl rfl hb hd)
  | lam ha hb =>
    cases second with
    | lam hc hd => exact .lam (next 0 _ _ _ rfl rfl rfl ha hc) (next 1 _ _ _ rfl rfl rfl hb hd)
  | letIn hv ha hb =>
    cases second with
    | letIn hw hc hd =>
      exact .letIn (next 1 _ _ _ rfl rfl rfl hv hw) (next 0 _ _ _ rfl rfl rfl ha hc)
        (next 2 _ _ _ rfl rfl rfl hb hd)
  | cast ht ha =>
    cases second with
    | cast hu hb => exact .cast (next 1 _ _ _ rfl rfl rfl ht hu) (next 0 _ _ _ rfl rfl rfl ha hb)
  | case hr hc hbs =>
    cases second with
    | case hq hu hcs =>
      simp only [parts_case] at next
      exact .case (next 0 _ _ _ rfl rfl rfl hr hq) (next 1 _ _ _ rfl rfl rfl hc hu)
        (forall₂_comp_at (fun i a b c ha hb hc => next (i + 2) a b c ha hb hc) hbs hcs)
  | @fix i as _ _ _ has hbs =>
    cases second with
    | fix has' hbs' =>
      simp only [parts_fix] at next
      have before {j : Nat} {a : Term} {as : List Term} (bs : List Term) (ha : as[j]? = some a) :
          (as ++ bs)[j]? = some a := by
        rw [List.getElem?_append_left (List.getElem?_eq_some_iff.1 ha).1, ha]
      have after {j : Nat} {b : Term} {as' bs : List Term} (len : as.length = as'.length)
          (hb : bs[j]? = some b) : (as' ++ bs)[as.length + j]? = some b := by
        rw [List.getElem?_append_right (by omega), len, Nat.add_sub_cancel_left, hb]
      refine .fix (forall₂_comp_at (fun j a b c ha hb hc => ?_) has has')
        (forall₂_comp_at (fun j a b c ha hb hc => ?_) hbs hbs')
      · exact next j a b c (before _ ha) (before _ hb) (before _ hc)
      · exact next (as.length + j) a b c (after rfl ha) (after has.length_eq hb)
          (after (has.length_eq.trans has'.length_eq) hc)

/-- Two relations in a row. -/
theorem comp (next : ∀ a b c, R a b → S b c → T a c) (first : Framed R f g)
    (second : Framed S g h) : Framed T f h :=
  comp_at (fun _ a b c _ _ _ => next a b c) first second

theorem mono (imp : ∀ a b, R a b → S a b) (framed : Framed R f g) : Framed S f g :=
  comp (S := Eq) (fun a b _ hab hbc => hbc ▸ imp a b hab) framed (refl (fun _ => rfl) g)

end Head.Framed

end KeyedMatching
