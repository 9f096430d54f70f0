import CodebaseMem.Library.LittleEndian
import Mathlib.Data.List.Basic

/-!
# Length-prefixed records

A buffer stores items one after the other, each as a four-byte little-endian
length followed by the bytes of the item.  The buffer only grows, so the
position of a record never changes, and two records never share a position.
Reading the lengths one after the other cuts the buffer into its records again.

* `RecordAt`: an item's record starts at a position of the buffer.  `RecordAt.append` and
  `RecordAt.append_left` follow it while the buffer grows.
* `RecordAt.item_unique`, `RecordAt.position_unique`: positions and items determine each
  other when no item is stored twice.
* `parseRecords`, `parseRecords_records`: cutting the buffer finds every item once, in
  order, at the position of its record.

An item is taken to be shorter than `2 ^ 32` bytes where its length is read back.
-/

namespace CodebaseMem
namespace Library

variable {α : Type*} (bytes : α → List UInt8)

def record (item : α) : List UInt8 :=
  toLittleEndian 4 (bytes item).length ++ bytes item

/-- The buffer that stores `items` in order. -/
def records (items : List α) : List UInt8 := items.flatMap (record bytes)

@[simp] theorem length_record (item : α) :
    (record bytes item).length = 4 + (bytes item).length := by
  simp [record]

@[simp] theorem records_nil : records bytes [] = [] := rfl

theorem records_cons (item : α) (items : List α) :
    records bytes (item :: items) = record bytes item ++ records bytes items :=
  List.flatMap_cons

theorem records_append (items items' : List α) :
    records bytes (items ++ items') = records bytes items ++ records bytes items' :=
  List.flatMap_append

/-- `item` is one of `items` and its record starts at `position`. Positions in the middle
of a record are never meant, although the bytes there could be read as a length. -/
def RecordAt (items : List α) (position : Nat) (item : α) : Prop :=
  ∃ before rest, items = before ++ item :: rest ∧ position = (records bytes before).length

variable {items : List α} {position : Nat} {item : α}

theorem exists_recordAt_of_mem (h : item ∈ items) :
    ∃ position, RecordAt bytes items position item := by
  obtain ⟨before, rest, rfl⟩ := List.append_of_mem h
  exact ⟨_, before, rest, rfl, rfl⟩

theorem recordAt_concat (items : List α) (item : α) :
    RecordAt bytes (items ++ [item]) (records bytes items).length item :=
  ⟨items, [], rfl, rfl⟩

variable {bytes}

theorem RecordAt.mem (h : RecordAt bytes items position item) : item ∈ items := by
  obtain ⟨before, rest, rfl, -⟩ := h
  simp

theorem RecordAt.append (h : RecordAt bytes items position item) (items' : List α) :
    RecordAt bytes (items ++ items') position item := by
  obtain ⟨before, rest, rfl, rfl⟩ := h
  exact ⟨before, rest ++ items', by simp, rfl⟩

theorem RecordAt.append_left (h : RecordAt bytes items position item) (items' : List α) :
    RecordAt bytes (items' ++ items) ((records bytes items').length + position) item := by
  obtain ⟨before, rest, rfl, rfl⟩ := h
  exact ⟨items' ++ before, rest, by simp, by simp [records_append]⟩

theorem RecordAt.exists_records_eq (h : RecordAt bytes items position item) :
    ∃ before rest, records bytes items = before ++ record bytes item ++ rest ∧
      before.length = position := by
  obtain ⟨before, rest, rfl, rfl⟩ := h
  refine ⟨records bytes before, records bytes rest, ?_, rfl⟩
  rw [records_append, records_cons, List.append_assoc]

theorem RecordAt.add_length_le (h : RecordAt bytes items position item) :
    position + 4 + (bytes item).length ≤ (records bytes items).length := by
  obtain ⟨before, rest, hBuffer, rfl⟩ := h.exists_records_eq
  rw [hBuffer]
  simp only [List.length_append, length_record]
  omega

theorem RecordAt.item_unique {item' : α} (h : RecordAt bytes items position item)
    (h' : RecordAt bytes items position item') : item = item' := by
  obtain ⟨before, rest, hItems, hPosition⟩ := h
  obtain ⟨before', rest', hItems', hPosition'⟩ := h'
  have hSplit : before ++ item :: rest = before' ++ item' :: rest' := hItems.symm.trans hItems'
  rcases List.append_eq_append_iff.mp hSplit with
    ⟨middle, hBefore, hRest⟩ | ⟨middle, hBefore, hRest⟩
  · cases middle with
    | nil => exact (List.cons.inj hRest).1
    | cons first middle =>
        rw [hBefore, records_append, records_cons] at hPosition'
        simp only [List.length_append, length_record] at hPosition'
        omega
  · cases middle with
    | nil => exact (List.cons.inj hRest).1.symm
    | cons first middle =>
        rw [hBefore, records_append, records_cons] at hPosition
        simp only [List.length_append, length_record] at hPosition
        omega

theorem RecordAt.position_unique {position' : Nat} (hNodup : items.Nodup)
    (h : RecordAt bytes items position item) (h' : RecordAt bytes items position' item) :
    position = position' := by
  obtain ⟨before, rest, hItems, rfl⟩ := h
  obtain ⟨before', rest', hItems', rfl⟩ := h'
  have hBefore : before = before' := by
    have hNotMem : item ∉ before ∧ item ∉ before' := by
      constructor
      · intro hMem
        rw [hItems, List.nodup_append] at hNodup
        exact hNodup.2.2 item hMem item List.mem_cons_self rfl
      · intro hMem
        rw [hItems', List.nodup_append] at hNodup
        exact hNodup.2.2 item hMem item List.mem_cons_self rfl
    -- one of the two parts is a prefix of the other, and the item is not in between
    have hSplit : before ++ item :: rest = before' ++ item :: rest' :=
      hItems.symm.trans hItems'
    rcases List.append_eq_append_iff.mp hSplit with
      ⟨middle, rfl, hRest⟩ | ⟨middle, rfl, hRest⟩
    · cases middle with
      | nil => simp
      | cons first middle =>
          obtain ⟨rfl, -⟩ := List.cons.inj hRest
          exact absurd (List.mem_append_right _ List.mem_cons_self) hNotMem.2
    · cases middle with
      | nil => simp
      | cons first middle =>
          obtain ⟨rfl, -⟩ := List.cons.inj hRest
          exact absurd (List.mem_append_right _ List.mem_cons_self) hNotMem.1
  rw [hBefore]

/-!
## Reading the records back
-/

/-- Cut a buffer into records, the first of them at `position`.  The cut fails when
the buffer does not end where a record does. -/
def parseRecords (position : Nat) : List UInt8 → Option (List (Nat × List UInt8))
  | [] => some []
  | b₀ :: b₁ :: b₂ :: b₃ :: buffer =>
      let len := ofLittleEndian [b₀, b₁, b₂, b₃]
      if len ≤ buffer.length then
        (parseRecords (position + 4 + len) (buffer.drop len)).map
          ((position, buffer.take len) :: ·)
      else none
  | _ => none
termination_by buffer => buffer.length
decreasing_by
  simp only [List.length_drop, List.length_cons]
  omega

/-- The items with the positions of their records, the first of them at `position`. -/
def placeRecords (bytes : α → List UInt8) (position : Nat) : List α → List (Nat × α)
  | [] => []
  | item :: items =>
      (position, item) :: placeRecords bytes (position + 4 + (bytes item).length) items

theorem parseRecords_record_append (position : Nat) {item : α} (rest : List UInt8)
    (hFits : (bytes item).length < 2 ^ 32) :
    parseRecords position (record bytes item ++ rest) =
      (parseRecords (position + 4 + (bytes item).length) rest).map
        ((position, bytes item) :: ·) := by
  have hLength := length_toLittleEndian 4 (bytes item).length
  have hRead : ofLittleEndian (toLittleEndian 4 (bytes item).length) = (bytes item).length :=
    ofLittleEndian_toLittleEndian hFits
  rw [record]
  generalize toLittleEndian 4 (bytes item).length = header at hLength hRead
  obtain ⟨b₀, b₁, b₂, b₃, rfl⟩ := List.length_eq_four.mp hLength
  simp only [List.cons_append, List.nil_append]
  rw [parseRecords]
  simp [hRead]

/-- The cut finds every item once, in order, at the position of its record. -/
theorem parseRecords_records (position : Nat) {items : List α}
    (hFits : ∀ item ∈ items, (bytes item).length < 2 ^ 32) :
    parseRecords position (records bytes items) =
      some ((placeRecords bytes position items).map (Prod.map id bytes)) := by
  induction items generalizing position with
  | nil =>
      rw [records_nil, parseRecords]
      rfl
  | cons item items ih =>
      have hRest := ih (position + 4 + (bytes item).length)
        fun item' hMem => hFits item' (List.mem_cons_of_mem _ hMem)
      rw [records_cons, parseRecords_record_append position _ (hFits item List.mem_cons_self),
        hRest]
      rfl

theorem map_snd_placeRecords (position : Nat) (items : List α) :
    (placeRecords bytes position items).map Prod.snd = items := by
  induction items generalizing position with
  | nil => rfl
  | cons item items ih => rw [placeRecords, List.map_cons, ih]

theorem recordAt_cons_iff {first : α} :
    RecordAt bytes (first :: items) position item ↔
      (position = 0 ∧ item = first) ∨
        ∃ later, RecordAt bytes items later item ∧
          position = 4 + (bytes first).length + later := by
  constructor
  · rintro ⟨before, rest, hItems, hPosition⟩
    cases before with
    | nil => exact Or.inl ⟨hPosition, (List.cons.inj hItems).1.symm⟩
    | cons head before =>
        obtain ⟨rfl, hSplit⟩ := List.cons.inj hItems
        refine Or.inr ⟨_, ⟨before, rest, hSplit, rfl⟩, ?_⟩
        rw [hPosition, records_cons, List.length_append, length_record]
  · rintro (⟨rfl, rfl⟩ | ⟨later, hLater, rfl⟩)
    · exact ⟨[], items, rfl, rfl⟩
    · simpa [records_cons] using hLater.append_left [first]

theorem mem_placeRecords_iff (start : Nat) :
    (position, item) ∈ placeRecords bytes start items ↔
      ∃ offset, RecordAt bytes items offset item ∧ position = start + offset := by
  induction items generalizing start with
  | nil =>
      simp [placeRecords, RecordAt]
  | cons first items ih =>
      simp only [placeRecords, List.mem_cons, Prod.mk.injEq, ih, recordAt_cons_iff]
      constructor
      · rintro (⟨rfl, rfl⟩ | ⟨later, hLater, rfl⟩)
        · exact ⟨0, Or.inl ⟨rfl, rfl⟩, rfl⟩
        · exact ⟨_, Or.inr ⟨later, hLater, rfl⟩, by omega⟩
      · rintro ⟨offset, ⟨rfl, rfl⟩ | ⟨later, hLater, rfl⟩, rfl⟩
        · exact Or.inl ⟨rfl, rfl⟩
        · exact Or.inr ⟨later, hLater, by omega⟩

theorem length_records (items : List α) :
    (records bytes items).length = (items.map fun item => 4 + (bytes item).length).sum := by
  induction items with
  | nil => rfl
  | cons item items ih =>
      calc (records bytes (item :: items)).length
        _ = (record bytes item).length + (records bytes items).length := by
          rw [records_cons, List.length_append]
        _ = (4 + (bytes item).length) +
              (items.map fun item => 4 + (bytes item).length).sum := by
          rw [length_record, ih]
        _ = ((item :: items).map fun item => 4 + (bytes item).length).sum := by
          rw [List.map_cons, List.sum_cons]

end Library
end CodebaseMem
