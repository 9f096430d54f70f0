import Mathlib.Data.List.Basic

/-!
# Walks over rose trees

A pre-order walk carries a scope: what a node emits depends on the scope it is
met in, and its children are met in the scope it opens for them.  The scope of a
node is then a function of its proper ancestors alone, so the walk emits the
same list as a flat pass over the occurrences of the tree.

* `RoseTree`, `RoseTree.induction_on`: trees with any number of children, and induction
  with a hypothesis for all children.
* `Occurrence`, `occurrences`: the nodes of a tree in pre-order, each with its ancestors.
* `emitAll_eq_ite`: a pass whose elements emit or fail with one error.
* `scopedWalk_eq_emitAll`: the walk is the pass.

The scope is passed down here.  That a walk with one mutable stack amounts to this is for
the program to show.
-/

namespace CodebaseMem
namespace Library

variable {α β σ ε : Type}

inductive RoseTree (α : Type) where
  | node (label : α) (children : List (RoseTree α))

namespace RoseTree

def label : RoseTree α → α
  | .node label _ => label

def children : RoseTree α → List (RoseTree α)
  | .node _ children => children

@[simp] theorem label_node (a : α) (cs : List (RoseTree α)) : (node a cs).label = a := rfl

@[simp] theorem children_node (a : α) (cs : List (RoseTree α)) : (node a cs).children = cs :=
  rfl

/-- A tree with its proper ancestors, outermost first.  Equal trees at two places of a
larger tree are two occurrences. -/
structure Occurrence (α : Type) where
  ancestors : List (RoseTree α)
  node : RoseTree α

mutual

/-- The occurrences of the nodes of a tree in pre-order, below the given
ancestors. -/
def occurrences (ancestors : List (RoseTree α)) : RoseTree α → List (Occurrence α)
  | .node a cs => ⟨ancestors, .node a cs⟩ :: occurrencesAll (ancestors ++ [.node a cs]) cs

def occurrencesAll (ancestors : List (RoseTree α)) : List (RoseTree α) → List (Occurrence α)
  | [] => []
  | t :: ts => occurrences ancestors t ++ occurrencesAll ancestors ts

end

/-- Induction on a rose tree: a tree may use the claim for its children. -/
theorem induction_on {motive : RoseTree α → Prop} (t : RoseTree α)
    (hNode : ∀ a cs, (∀ c ∈ cs, motive c) → motive (.node a cs)) : motive t :=
  RoseTree.rec (motive_1 := motive) (motive_2 := fun cs => ∀ c ∈ cs, motive c)
    hNode (by simp) (fun _ _ hHead hTail => List.forall_mem_cons.mpr ⟨hHead, hTail⟩) t

end RoseTree

/-- Emit from every element in order; the first failure ends the pass. -/
def emitAll (emit : α → Except ε (List β)) : List α → Except ε (List β)
  | [] => .ok []
  | a :: rest => do
      let head ← emit a
      let tail ← emitAll emit rest
      .ok (head ++ tail)

theorem emitAll_append (emit : α → Except ε (List β)) (xs ys : List α) :
    emitAll emit (xs ++ ys) = (do
      let head ← emitAll emit xs
      let tail ← emitAll emit ys
      .ok (head ++ tail)) := by
  induction xs with
  | nil =>
      cases h : emitAll emit ys with
      | error e => simp [emitAll, h, bind, Except.bind]
      | ok tail => simp [emitAll, h, bind, Except.bind]
  | cons x xs ih =>
      rw [List.cons_append, emitAll, ih, emitAll]
      cases emit x with
      | error e => rfl
      | ok head =>
          cases emitAll emit xs with
          | error e => rfl
          | ok middle =>
              cases emitAll emit ys with
              | error e => rfl
              | ok tail => simp [bind, Except.bind]

/-- When every element emits or fails with one and the same error, the pass
collects what they emit unless some element fails. -/
theorem emitAll_eq_ite {emit : α → Except ε (List β)} {fits : α → Prop} [DecidablePred fits]
    {items : α → List β} {e : ε} {xs : List α}
    (h : ∀ a ∈ xs, emit a = if fits a then .ok (items a) else .error e) :
    emitAll emit xs = if ∀ a ∈ xs, fits a then .ok (xs.flatMap items) else .error e := by
  induction xs with
  | nil => rfl
  | cons x xs ih =>
      rw [emitAll, h x List.mem_cons_self, ih fun a ha => h a (List.mem_cons_of_mem _ ha)]
      by_cases hx : fits x
      · by_cases hxs : ∀ a ∈ xs, fits a
        · rw [if_pos hx, if_pos hxs, if_pos (List.forall_mem_cons.mpr ⟨hx, hxs⟩)]
          rfl
        · have hFails : ¬∀ a ∈ x :: xs, fits a := fun hAll => hxs (List.forall_mem_cons.mp hAll).2
          rw [if_pos hx, if_neg hxs, if_neg hFails]
          rfl
      · have hFails : ¬∀ a ∈ x :: xs, fits a := fun hAll => hx (List.forall_mem_cons.mp hAll).1
        rw [if_neg hx, if_neg hFails]
        rfl

open RoseTree

mutual

/-- The walk: a node emits in the scope it is met in, then its children are
walked in the scope it opens for them. -/
def scopedWalk (emit : σ → RoseTree α → Except ε (List β)) (enter : σ → RoseTree α → σ)
    (scope : σ) : RoseTree α → Except ε (List β)
  | .node a cs => do
      let head ← emit scope (.node a cs)
      let tail ← scopedWalkAll emit enter (enter scope (.node a cs)) cs
      .ok (head ++ tail)

def scopedWalkAll (emit : σ → RoseTree α → Except ε (List β)) (enter : σ → RoseTree α → σ)
    (scope : σ) : List (RoseTree α) → Except ε (List β)
  | [] => .ok []
  | t :: ts => do
      let head ← scopedWalk emit enter scope t
      let tail ← scopedWalkAll emit enter scope ts
      .ok (head ++ tail)

end

section

variable (emit : σ → RoseTree α → Except ε (List β)) (enter : σ → RoseTree α → σ)

/-- What a node emits in the scope its ancestors open.  This is what the stack of the
walk comes to when the walk is at the node. -/
def emitAt (scope : σ) (o : Occurrence α) : Except ε (List β) :=
  emit (o.ancestors.foldl enter scope) o.node

/-- The walk below some ancestors is a pass over the occurrences below them.  Induction
on the tree, with the scope that the ancestors open in front. -/
theorem scopedWalk_below (scope : σ) (tree : RoseTree α) (ancestors : List (RoseTree α)) :
    scopedWalk emit enter (ancestors.foldl enter scope) tree =
      emitAll (emitAt emit enter scope) (occurrences ancestors tree) := by
  induction tree using RoseTree.induction_on generalizing ancestors with
  | hNode a cs ih =>
      have hAll : ∀ below : List (RoseTree α), ∀ ts : List (RoseTree α), (∀ t ∈ ts, t ∈ cs) →
          scopedWalkAll emit enter (below.foldl enter scope) ts =
            emitAll (emitAt emit enter scope) (occurrencesAll below ts) := by
        intro below ts hts
        induction ts with
        | nil => rfl
        | cons t ts ihs =>
            rw [scopedWalkAll, ih t (hts t List.mem_cons_self),
              ihs fun c hc => hts c (List.mem_cons_of_mem _ hc), occurrencesAll, emitAll_append]
      have hEnter : enter (ancestors.foldl enter scope) (RoseTree.node a cs) =
          (ancestors ++ [RoseTree.node a cs]).foldl enter scope := by
        rw [List.foldl_append, List.foldl_cons, List.foldl_nil]
      -- the node itself, then its children in the scope that the node enters
      rw [scopedWalk, occurrences, emitAll, emitAt, hEnter, hAll _ cs fun _ h => h]

/-- The walk of a tree is a pass over its occurrences. -/
theorem scopedWalk_eq_emitAll (scope : σ) (tree : RoseTree α) :
    scopedWalk emit enter scope tree =
      emitAll (emitAt emit enter scope) (occurrences [] tree) :=
  scopedWalk_below emit enter scope tree []

end

end Library
end CodebaseMem
