import Mathlib.Data.List.TakeDrop
import Mathlib.Data.Vector.Basic

/-!
# Fields of a buffer

A field of a buffer of fixed size is a window given by its offset and its width.
Writing a field keeps every other window, and a window reads back what was last
written to it.

* `readField`, `writeField`: on vectors, with the bound of the window as an argument, so
  a window that leaves the buffer cannot be written down.
* `readField_writeField_same`, `readField_writeField_disjoint`: the two laws.
* `readField_eq_readField_iff`: windows are equal exactly when their elements are.
-/

namespace CodebaseMem
namespace Library

variable {α : Type*} {n : Nat}

def readField (buffer : List.Vector α n) (offset width : Nat)
    (hFits : offset + width ≤ n := by decide) : List.Vector α width :=
  ⟨(buffer.toList.drop offset).take width, by
    rw [List.length_take, List.length_drop, List.Vector.toList_length]
    omega⟩

/-- Replace the window at `offset` by `source`. -/
def writeField {width : Nat} (buffer : List.Vector α n) (offset : Nat)
    (source : List.Vector α width) (hFits : offset + width ≤ n := by decide) :
    List.Vector α n :=
  ⟨buffer.toList.take offset ++ source.toList ++ buffer.toList.drop (offset + width), by
    simp only [List.length_append, List.length_take, List.length_drop,
      List.Vector.toList_length]
    omega⟩

theorem getElem?_readField (buffer : List.Vector α n) {offset width : Nat}
    (hFits : offset + width ≤ n) (i : Nat) :
    (readField buffer offset width hFits).toList[i]? =
      if i < width then buffer.toList[offset + i]? else none := by
  rw [readField, List.Vector.toList_mk, List.getElem?_take, List.getElem?_drop]

theorem getElem?_writeField {width : Nat} (buffer : List.Vector α n) {offset : Nat}
    (source : List.Vector α width) (hFits : offset + width ≤ n) (i : Nat) :
    (writeField buffer offset source hFits).toList[i]? =
      if offset ≤ i ∧ i < offset + width then source.toList[i - offset]?
      else buffer.toList[i]? := by
  have hTake : (buffer.toList.take offset).length = offset := by
    rw [List.length_take, List.Vector.toList_length]
    omega
  have hSource : source.toList.length = width := source.toList_length
  rw [writeField, List.Vector.toList_mk]
  by_cases hBefore : i < offset
  · rw [List.append_assoc, List.getElem?_append_left (by omega), if_neg (by omega),
      List.getElem?_take_of_lt hBefore]
  · by_cases hAfter : i < offset + width
    · rw [List.getElem?_append_left (by rw [List.length_append]; omega),
        List.getElem?_append_right (by omega), hTake, if_pos (by omega)]
    · rw [List.getElem?_append_right (by rw [List.length_append]; omega), if_neg (by omega),
        List.length_append, hTake, hSource, List.getElem?_drop]
      congr 1
      omega

theorem vector_ext_getElem? {u v : List.Vector α n}
    (h : ∀ i : Nat, u.toList[i]? = v.toList[i]?) : u = v :=
  List.Vector.eq u v (List.ext_getElem? h)

@[simp] theorem readField_writeField_same {width : Nat} (buffer : List.Vector α n)
    (offset : Nat) (source : List.Vector α width) (hFits : offset + width ≤ n) :
    readField (writeField buffer offset source hFits) offset width hFits = source := by
  apply vector_ext_getElem?
  intro i
  rw [getElem?_readField, getElem?_writeField]
  by_cases hi : i < width
  · rw [if_pos hi, if_pos (by omega), Nat.add_sub_cancel_left]
  · rw [if_neg hi, List.getElem?_eq_none (by rw [List.Vector.toList_length]; omega)]

theorem readField_writeField_disjoint {width width' : Nat} (buffer : List.Vector α n)
    {offset offset' : Nat} (source : List.Vector α width')
    (hFits : offset + width ≤ n) (hFits' : offset' + width' ≤ n)
    (hApart : offset + width ≤ offset' ∨ offset' + width' ≤ offset) :
    readField (writeField buffer offset' source hFits') offset width hFits =
      readField buffer offset width hFits := by
  apply vector_ext_getElem?
  intro i
  rw [getElem?_readField, getElem?_readField, getElem?_writeField]
  by_cases hi : i < width
  · rw [if_pos hi, if_pos hi, if_neg (by omega)]
  · rw [if_neg hi, if_neg hi]

theorem readField_one (buffer : List.Vector α n) {offset : Nat} (hFits : offset + 1 ≤ n) :
    readField buffer offset 1 hFits = ⟨[buffer[offset]], rfl⟩ := by
  apply List.Vector.eq
  have hOffset : offset < buffer.toList.length := by
    rw [List.Vector.toList_length]
    omega
  rw [readField, List.Vector.toList_mk, List.drop_eq_getElem_cons hOffset]
  rfl

theorem readField_two (buffer : List.Vector α n) {offset : Nat} (hFits : offset + 2 ≤ n) :
    readField buffer offset 2 hFits = ⟨[buffer[offset], buffer[offset + 1]], rfl⟩ := by
  apply List.Vector.eq
  have hLength : buffer.toList.length = n := buffer.toList_length
  rw [readField, List.Vector.toList_mk, List.drop_eq_getElem_cons (by omega),
    List.drop_eq_getElem_cons (by omega)]
  rfl

/-- Two buffers have the same window exactly when they agree on its elements. -/
theorem readField_eq_readField_iff (u v : List.Vector α n) {offset width : Nat}
    (hFits : offset + width ≤ n) :
    readField u offset width hFits = readField v offset width hFits ↔
      ∀ i : Fin n, offset ≤ i → i < offset + width → u.get i = v.get i := by
  have hGet : ∀ (w : List.Vector α n) (i : Fin n), w.toList[(i : Nat)]? = some (w.get i) := by
    intro w i
    rw [List.Vector.get_eq_get_toList, List.get_eq_getElem]
    exact List.getElem?_eq_getElem _
  constructor
  · intro h i hFrom hTo
    have hElement := congrArg (fun w => w.toList[(i : Nat) - offset]?) h
    simp only [getElem?_readField, if_pos (show (i : Nat) - offset < width by omega),
      Nat.add_sub_cancel' hFrom, hGet] at hElement
    exact Option.some.inj hElement
  · intro h
    apply vector_ext_getElem?
    intro i
    rw [getElem?_readField, getElem?_readField]
    by_cases hi : i < width
    · have hBoth := h ⟨offset + i, by omega⟩ (by simp) (by simpa using hi)
      rw [if_pos hi, if_pos hi, hGet u ⟨offset + i, by omega⟩, hGet v ⟨offset + i, by omega⟩,
        hBoth]
    · rw [if_neg hi, if_neg hi]

end Library
end CodebaseMem
