import Mathlib.Data.List.Basic

/-!
# Joining pieces

Pieces that are joined with a separator can be read off the result when the first
element of the separator occurs in none of them.

* `append_inj_of_not_mem`: a piece ends where the separator begins.
* `intercalate_cons_eq_flatMap`: a join is the first piece, and every other piece behind a
  separator.
* `intercalate_inj`: so the join determines the pieces.

Both lists of pieces must be nonempty: no pieces and one empty piece are joined to the
same list.
-/

namespace CodebaseMem
namespace Library

variable {α : Type*} {head : α} {tail : List α}

/-- A piece ends where the separator begins. -/
theorem append_inj_of_not_mem {piece piece' rest rest' : List α} (hPiece : head ∉ piece)
    (hPiece' : head ∉ piece') (hRest : ∀ a ∈ rest.head?, a = head)
    (hRest' : ∀ a ∈ rest'.head?, a = head) (h : piece ++ rest = piece' ++ rest') :
    piece = piece' ∧ rest = rest' := by
  rcases List.append_eq_append_iff.mp h with ⟨middle, rfl, rfl⟩ | ⟨middle, rfl, rfl⟩
  · cases middle with
    | nil => simp
    | cons a middle =>
        obtain rfl := hRest a rfl
        exact absurd (List.mem_append_right piece List.mem_cons_self) hPiece'
  · cases middle with
    | nil => simp
    | cons a middle =>
        obtain rfl := hRest' a rfl
        exact absurd (List.mem_append_right piece' List.mem_cons_self) hPiece

theorem intercalate_cons_eq_flatMap (separator piece : List α) (pieces : List (List α)) :
    separator.intercalate (piece :: pieces) =
      piece ++ pieces.flatMap fun later => separator ++ later := by
  induction pieces generalizing piece with
  | nil => simp
  | cons next pieces ih =>
      rw [List.intercalate_cons_cons, ih, List.flatMap_cons, List.append_assoc]
      simp

theorem head_flatMap_separator (pieces : List (List α)) :
    ∀ a ∈ (pieces.flatMap fun later => (head :: tail) ++ later).head?, a = head := by
  cases pieces with
  | nil => simp
  | cons piece pieces =>
      intro a hHead
      exact (Option.some.inj hHead).symm

/-- Pieces without the first element of the separator are determined by their join.  The
pieces themselves may be empty; what matters is where each of them ends. -/
theorem intercalate_inj {pieces pieces' : List (List α)}
    (hPieces : ∀ piece ∈ pieces, head ∉ piece) (hPieces' : ∀ piece ∈ pieces', head ∉ piece)
    (hNonempty : pieces ≠ []) (hNonempty' : pieces' ≠ []) :
    (head :: tail).intercalate pieces = (head :: tail).intercalate pieces' ↔
      pieces = pieces' := by
  refine ⟨fun h => ?_, congrArg _⟩
  obtain ⟨piece, rest, rfl⟩ := List.exists_cons_of_ne_nil hNonempty
  obtain ⟨piece', rest', rfl⟩ := List.exists_cons_of_ne_nil hNonempty'
  rw [intercalate_cons_eq_flatMap, intercalate_cons_eq_flatMap] at h
  clear hNonempty hNonempty'
  -- each piece ends where the next separator begins, so the pieces agree one by one
  induction rest generalizing piece piece' rest' with
  | nil =>
      obtain ⟨rfl, hRest⟩ := append_inj_of_not_mem (hPieces _ List.mem_cons_self)
        (hPieces' _ List.mem_cons_self) (@head_flatMap_separator α head tail [])
        (head_flatMap_separator rest') h
      cases rest' with
      | nil => rfl
      | cons next rest' => simp at hRest
  | cons next rest ih =>
      obtain ⟨rfl, hRest⟩ := append_inj_of_not_mem (hPieces _ List.mem_cons_self)
        (hPieces' _ List.mem_cons_self) (head_flatMap_separator (next :: rest))
        (head_flatMap_separator rest') h
      cases rest' with
      | nil => simp at hRest
      | cons next' rest' =>
          rw [List.flatMap_cons, List.flatMap_cons, List.append_assoc, List.append_assoc,
            List.append_cancel_left_eq] at hRest
          have hLater : next :: rest = next' :: rest' := by
            apply ih
            · exact fun p hp => hPieces p (List.mem_cons_of_mem _ hp)
            · exact fun p hp => hPieces' p (List.mem_cons_of_mem _ hp)
            · exact hRest
          rw [hLater]

end Library
end CodebaseMem
