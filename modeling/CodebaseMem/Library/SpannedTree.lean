import CodebaseMem.Library.ScopedWalk
import Mathlib.Data.Nat.Basic
import Mathlib.Order.Basic

/-!
# Trees with spans

Every node of a tree takes up a span of a text, the spans of siblings follow one another
and stay inside the span of their parent.  In pre-order the spans then start in order,
and of two spans the later one lies inside the earlier one or behind it.

* `Spanned`: the spans of the children follow one another inside the span of the node.
* `Spanned.within`, `Spanned.within_ancestors`: every node stays inside the spans of the
  root and of the nodes above it.
* `Spanned.pairwise_occurrences`: order and nesting, for any two nodes.
* `isSpanned`: a test for concrete trees.

Spans may be empty, and gaps are allowed.
-/

namespace CodebaseMem
namespace Library

variable {α : Type} (start stop : α → Nat)

/-- The spans of the children follow one another inside the span of the node.  They need
not touch, and a span may be empty. -/
inductive Spanned : RoseTree α → Prop
  | node (a : α) (cs : List (RoseTree α)) (hOrder : start a ≤ stop a)
      (hInside : ∀ c ∈ cs, start a ≤ start c.label ∧ stop c.label ≤ stop a)
      (hSiblings : cs.Pairwise fun c d => stop c.label ≤ start d.label)
      (hChildren : ∀ c ∈ cs, Spanned c) : Spanned (.node a cs)

/-- The span of `a` starts no later than that of `b`, and contains it or ends before it. -/
def NestedOrBefore (a b : α) : Prop :=
  start a ≤ start b ∧ (stop b ≤ stop a ∨ stop a ≤ start b)

variable {start stop}

open RoseTree

theorem mem_occurrencesAll {ancestors : List (RoseTree α)} {ts : List (RoseTree α)}
    {o : Occurrence α} :
    o ∈ occurrencesAll ancestors ts ↔ ∃ t ∈ ts, o ∈ occurrences ancestors t := by
  induction ts with
  | nil => simp [occurrencesAll]
  | cons t ts ih => simp [occurrencesAll, ih]

/-- Every node of the tree stays inside its span. -/
theorem Spanned.within {t : RoseTree α} (h : Spanned start stop t) {ancestors : List (RoseTree α)}
    {o : Occurrence α} (hMem : o ∈ occurrences ancestors t) :
    start t.label ≤ start o.node.label ∧ start o.node.label ≤ stop o.node.label ∧
      stop o.node.label ≤ stop t.label := by
  induction h generalizing ancestors with
  | node a cs hOrder hInside hSiblings hChildren ih =>
      rw [occurrences, List.mem_cons] at hMem
      rcases hMem with rfl | hBelow
      · exact ⟨le_rfl, hOrder, le_rfl⟩
      · obtain ⟨c, hc, hOccurs⟩ := mem_occurrencesAll.mp hBelow
        obtain ⟨hStart, hSpan, hStop⟩ := ih c hc hOccurs
        obtain ⟨hLeft, hRight⟩ := hInside c hc
        exact ⟨hLeft.trans hStart, hSpan, hStop.trans hRight⟩

/-- Every node stays inside the spans of the nodes above it, not only of its parent. -/
theorem Spanned.within_ancestors {t : RoseTree α} (h : Spanned start stop t)
    {ancestors : List (RoseTree α)} {o : Occurrence α} (hMem : o ∈ occurrences ancestors t) :
    ∃ path, o.ancestors = ancestors ++ path ∧ ∀ u ∈ path,
      start u.label ≤ start o.node.label ∧ stop o.node.label ≤ stop u.label := by
  induction h generalizing ancestors with
  | node a cs hOrder hInside hSiblings hChildren ih =>
      rw [occurrences, List.mem_cons] at hMem
      rcases hMem with rfl | hBelow
      · exact ⟨[], (List.append_nil _).symm, by simp⟩
      · obtain ⟨c, hc, hOccurs⟩ := mem_occurrencesAll.mp hBelow
        obtain ⟨path, hPath, hSpans⟩ := ih c hc hOccurs
        obtain ⟨hStart, -, hStop⟩ := (hChildren c hc).within hOccurs
        obtain ⟨hLeft, hRight⟩ := hInside c hc
        refine ⟨.node a cs :: path, by rw [hPath, List.append_assoc]; rfl, fun u hu => ?_⟩
        rcases List.mem_cons.mp hu with rfl | hLater
        · exact ⟨hLeft.trans hStart, hStop.trans hRight⟩
        · exact hSpans u hLater

/-- In pre-order the spans start in order, and each lies inside an earlier one or behind
it. -/
theorem Spanned.pairwise_occurrences {t : RoseTree α} (h : Spanned start stop t)
    (ancestors : List (RoseTree α)) :
    (occurrences ancestors t).Pairwise fun o p =>
      NestedOrBefore start stop o.node.label p.node.label := by
  induction h generalizing ancestors with
  | node a cs hOrder hInside hSiblings hChildren ih =>
      rw [occurrences, List.pairwise_cons]
      constructor
      · -- all that follows the node lies in the span of a child
        intro o hBelow
        obtain ⟨c, hc, hOccurs⟩ := mem_occurrencesAll.mp hBelow
        obtain ⟨hStart, -, hStop⟩ := (hChildren c hc).within hOccurs
        obtain ⟨hLeft, hRight⟩ := hInside c hc
        exact ⟨hLeft.trans hStart, .inl (hStop.trans hRight)⟩
      · -- siblings keep their nodes apart
        have hAll : ∀ ts : List (RoseTree α), (∀ t ∈ ts, t ∈ cs) →
            (ts.Pairwise fun c d => stop c.label ≤ start d.label) →
            (occurrencesAll (ancestors ++ [.node a cs]) ts).Pairwise fun o p =>
              NestedOrBefore start stop o.node.label p.node.label := by
          intro ts
          induction ts with
          | nil =>
              intro _ _
              exact .nil
          | cons t ts ihs =>
              intro hSub hApart
              obtain ⟨hFirst, hRest⟩ := List.pairwise_cons.mp hApart
              have ht := hSub t List.mem_cons_self
              rw [occurrencesAll, List.pairwise_append]
              refine ⟨ih t ht _, ihs (fun u hu => hSub u (List.mem_cons_of_mem _ hu)) hRest,
                fun o ho p hp => ?_⟩
              obtain ⟨u, hu, hOccurs⟩ := mem_occurrencesAll.mp hp
              obtain ⟨-, hSpan, hStop⟩ := (hChildren t ht).within ho
              obtain ⟨hStart, -, -⟩ :=
                (hChildren u (hSub u (List.mem_cons_of_mem _ hu))).within hOccurs
              have hBehind := hStop.trans ((hFirst u hu).trans hStart)
              exact ⟨hSpan.trans hBehind, .inr hBehind⟩
        exact hAll cs (fun _ hc => hc) hSiblings

/-! ### Checking the spans -/

mutual

def isSpanned (start stop : α → Nat) : RoseTree α → Bool
  | .node a cs =>
      decide (start a ≤ stop a) &&
        (cs.all fun c => decide (start a ≤ start c.label ∧ stop c.label ≤ stop a)) &&
        decide (cs.Pairwise fun c d => stop c.label ≤ start d.label) && areSpanned start stop cs

def areSpanned (start stop : α → Nat) : List (RoseTree α) → Bool
  | [] => true
  | c :: cs => isSpanned start stop c && areSpanned start stop cs

end

theorem areSpanned_iff {cs : List (RoseTree α)} :
    areSpanned start stop cs = true ↔ ∀ c ∈ cs, isSpanned start stop c = true := by
  induction cs with
  | nil => simp [areSpanned]
  | cons c cs ih => simp [areSpanned, ih]

theorem isSpanned_iff {t : RoseTree α} : isSpanned start stop t = true ↔ Spanned start stop t := by
  induction t using RoseTree.induction_on with
  | hNode a cs ih =>
      simp only [isSpanned, Bool.and_eq_true, decide_eq_true_eq, List.all_eq_true, areSpanned_iff]
      constructor
      · rintro ⟨⟨⟨hOrder, hInside⟩, hSiblings⟩, hChildren⟩
        exact .node a cs hOrder hInside hSiblings fun c hc => (ih c hc).mp (hChildren c hc)
      · rintro (⟨_, _, hOrder, hInside, hSiblings, hChildren⟩)
        exact ⟨⟨⟨hOrder, hInside⟩, hSiblings⟩, fun c hc => (ih c hc).mpr (hChildren c hc)⟩

instance (t : RoseTree α) : Decidable (Spanned start stop t) :=
  decidable_of_iff _ isSpanned_iff

end Library
end CodebaseMem
