import CodebaseMem.Core.FrozenInterner
import Mathlib.Algebra.BigOperators.Fin
import Mathlib.Algebra.Order.BigOperators.Group.Finset

/-!
# The prefix sums of `compact`

The limit of a shard buffer is inclusive, and sixteen full shards have `2 ^ 32`
bytes together.  So the prefix sums of a reachable interner fit into 32 bits
unless every shard is filled up to its last byte.

* `StartsExact`: no addition wraps around, and every start is the sum of the lengths
  before it.
* `startsExact_iff`: for the interner after any run of `intern` calls this holds exactly
  if some shard is not full.
* `not_startsExact_paddedStrings`: the sixteen strings with which it fails.  They are too
  long to be evaluated, so the run is followed by lemmas about one string for each shard.
-/

namespace CodebaseMem
namespace Core

open Library

/-- No addition of the prefix sums leaves `u32`, and every start is the true sum
of the lengths before it. -/
structure StartsExact (bufs : List (List UInt8)) (starts : List UInt32) : Prop where
  fits : ∀ (i : Nat) (start : UInt32) (buf : List UInt8), starts[i]? = some start →
    bufs[i]? = some buf → start.toNat + (UInt32.ofNat buf.length).toNat < 2 ^ 32
  exact : ∀ i ≤ bufs.length, ∃ start : UInt32, starts[i]? = some start ∧
    start.toNat = (bufs.take i).flatten.length

theorem StartsExact.total {bufs : List (List UInt8)} {starts : List UInt32}
    (h : StartsExact bufs starts) : bufs.flatten.length < 2 ^ 32 := by
  obtain ⟨start, -, hExact⟩ := h.exact bufs.length le_rfl
  rw [List.take_length] at hExact
  rw [← hExact]
  exact start.toNat_lt

namespace StringInterner

theorem exists_startsExact (profile : Profile) {bufs : List (List UInt8)}
    (hTotal : bufs.flatten.length < 2 ^ 32) :
    ∃ starts, shardStarts profile 0 bufs = .ok starts ∧ StartsExact bufs starts := by
  have hFits : (0 : UInt32).toNat + bufs.flatten.length < 2 ^ 32 := by
    rwa [UInt32.toNat_zero, Nat.zero_add]
  obtain ⟨starts, hStarts, hExact⟩ := shardStarts_ok profile bufs 0 hFits
  simp only [UInt32.toNat_zero, Nat.zero_add] at hExact
  refine ⟨starts, hStarts, ?_, hExact⟩
  intro i start buf hStart hBuf
  obtain ⟨hi, hGet⟩ := List.getElem?_eq_some_iff.mp hBuf
  obtain ⟨x, hx, hxNat⟩ := hExact i hi.le
  obtain rfl := Option.some.inj (hStart.symm.trans hx)
  -- the next prefix is part of all the bytes
  have hNext : (bufs.take (i + 1)).flatten.length = (bufs.take i).flatten.length + buf.length := by
    rw [List.take_add_one, hBuf]
    simp
  have hSub := (List.take_sublist (i + 1) bufs).flatten.length_le
  rw [toNat_ofNat_u32 (by omega)]
  omega

theorem totalBytes_eq_sum (interner : StringInterner) :
    interner.totalBytes = ∑ i, (interner.shards i).buf.length := by
  rw [totalBytes, Fin.sum_univ_def]

/-- Sixteen bounded buffers fit into 32 bits unless all of them are full.  Then their sum
is `2 ^ 32`, which is one more than `u32` holds. -/
theorem totalBytes_lt_iff {interner : StringInterner}
    (hSize : ∀ i, (interner.shards i).buf.length ≤ 2 ^ 28) :
    interner.totalBytes < 2 ^ 32 ↔ ∃ i, (interner.shards i).buf.length < 2 ^ 28 := by
  have hFull : ∑ _i : Fin shardCount, 2 ^ 28 = 2 ^ 32 := by simp [shardCount]
  rw [totalBytes_eq_sum]
  constructor
  · intro hTotal
    by_contra hNone
    push Not at hNone
    have hSum : ∑ i, (interner.shards i).buf.length = ∑ _i : Fin shardCount, 2 ^ 28 :=
      Finset.sum_congr rfl fun i _ => le_antisymm (hSize i) (hNone i)
    omega
  · rintro ⟨i, hi⟩
    rw [← hFull]
    exact Finset.sum_lt_sum (fun j _ => hSize j) ⟨i, Finset.mem_univ i, hi⟩

/-- For every interner that `intern` calls can reach, the prefix sums of `compact`
are exact if and only if some shard is not full. -/
theorem startsExact_iff (profile : Profile) (shardIndex : String → Fin shardCount)
    (calls : List String) {interner : StringInterner} {handles : List InternedStr}
    (hRun : internAll shardIndex StringInterner.new calls = .ok (interner, handles)) :
    (∃ starts, shardStarts profile 0 interner.shardBufs = .ok starts ∧
        StartsExact interner.shardBufs starts) ↔
      ∃ i, (interner.shards i).buf.length < 2 ^ 28 := by
  obtain ⟨tables, hHolds, -, -, -⟩ := (internerHolds_new shardIndex).internAll hRun
  rw [← totalBytes_lt_iff fun i => (hHolds.shard i).size, totalBytes_eq]
  constructor
  · rintro ⟨starts, -, hExact⟩
    exact hExact.total
  · exact exists_startsExact profile

theorem startsExact_repeated :
    ∃ interner handles,
      internAll (fun s => if s = "b" then 3 else 15) StringInterner.new ["ab", "b", "ab"] =
        .ok (interner, handles) ∧
      ∃ starts, shardStarts .dev 0 interner.shardBufs = .ok starts ∧
        StartsExact interner.shardBufs starts := by
  refine ⟨_, _, rfl, ?_⟩
  exact (startsExact_iff .dev (fun s => if s = "b" then 3 else 15) ["ab", "b", "ab"] rfl).mpr
    ⟨0, by decide⟩

/-! ### Sixteen full shards -/

theorem length_utf8_ofList (chars : List Char) :
    (utf8 (String.ofList chars)).length = (chars.map Char.utf8Size).sum := by
  rw [utf8_eq_flatMap, String.toList_ofList, List.length_flatMap]
  simp only [String.length_utf8EncodeChar]

/-- A letter that tells the shard, and `n` more letters. -/
def paddedString (n : Nat) (i : Fin shardCount) : String :=
  String.ofList (Char.ofNat (97 + i.val) :: List.replicate n 'a')

theorem length_utf8_paddedString (n : Nat) (i : Fin shardCount) :
    (utf8 (paddedString n i)).length = n + 1 := by
  have hLetter : ∀ i : Fin shardCount, (Char.ofNat (97 + i.val)).utf8Size = 1 := by decide
  have hPad : ('a' : Char).utf8Size = 1 := by decide
  calc (utf8 (paddedString n i)).length
    _ = ((Char.ofNat (97 + i.val) :: List.replicate n 'a').map Char.utf8Size).sum :=
      length_utf8_ofList _
    _ = 1 + n * 1 := by
      rw [List.map_cons, List.sum_cons, hLetter, List.map_replicate, hPad, List.sum_replicate,
        smul_eq_mul]
    _ = n + 1 := by omega

theorem paddedString_injective (n : Nat) : Function.Injective (paddedString n) := by
  intro i j h
  have hChars := congrArg String.toList h
  rw [paddedString, paddedString, String.toList_ofList, String.toList_ofList] at hChars
  have hDistinct : ∀ i j : Fin shardCount,
      Char.ofNat (97 + i.val) = Char.ofNat (97 + j.val) → i = j := by decide
  exact hDistinct i j (List.cons.inj hChars).1

/-- A hash that sends each padded string to its own shard. -/
def paddedShard (n : Nat) (s : String) : Fin shardCount :=
  ((List.finRange shardCount).find? fun i => paddedString n i = s).getD
    ⟨0, by decide⟩

theorem paddedShard_paddedString (n : Nat) (i : Fin shardCount) :
    paddedShard n (paddedString n i) = i := by
  have hFind : (List.finRange shardCount).find?
      (fun j => decide (paddedString n j = paddedString n i)) = some i := by
    cases hResult : (List.finRange shardCount).find?
        fun j => decide (paddedString n j = paddedString n i) with
    | none =>
        have hNone := List.find?_eq_none.mp hResult i (List.mem_finRange i)
        simp at hNone
    | some j =>
        have hj := List.find?_some hResult
        rw [decide_eq_true_eq] at hj
        rw [paddedString_injective n hj]
  rw [paddedShard, hFind, Option.getD_some]

end StringInterner

theorem ShardInner.exists_intern_new {s : String} (hFits : 4 + (utf8 s).length ≤ 2 ^ 28) :
    ∃ shard offset, ShardInner.new.intern s = .ok (shard, offset) ∧
      shard.buf.length = 4 + (utf8 s).length := by
  have hZero : u32TryFrom ShardInner.new.buf.length = some 0 := rfl
  have hRoom : saturatingAddU32 (saturatingAddU32 0 4) (UInt32.ofNat (utf8 s).length) ≤
      maxShardBytes := by
    have hMax : maxShardBytes.toNat = 2 ^ 28 := by decide
    have hFour : (saturatingAddU32 0 4).toNat = 4 := by decide
    rw [UInt32.le_iff_toNat_le, toNat_saturatingAddU32, hFour, hMax, toNat_ofNat_u32 (by omega)]
    omega
  have hNone : ShardInner.new.dedup s = none := rfl
  have hIntern : ShardInner.new.intern s =
      .ok ({ buf := ShardInner.new.buf ++ u32ToLeBytes (UInt32.ofNat (utf8 s).length) ++ utf8 s
             dedup := ShardInner.new.dedup.insert s 0 }, 0) := by
    unfold ShardInner.intern
    rw [hNone]
    dsimp only
    rw [u32TryFrom_of_lt (by omega), expect_some, Exec.ok_bind, hZero, expect_some, Exec.ok_bind,
      decide_eq_true hRoom, assert_true, Exec.ok_bind]
  exact ⟨_, 0, hIntern, by simp [ShardInner.new]⟩

namespace StringInterner

/-- Interning one string for each of some empty shards fills each of them with its
record. -/
theorem exists_internAll_of_new {shardIndex : String → Fin shardCount}
    {strings : Fin shardCount → String} (hShard : ∀ i, shardIndex (strings i) = i)
    (hFits : ∀ i, 4 + (utf8 (strings i)).length ≤ 2 ^ 28) {shards : List (Fin shardCount)}
    (hNodup : shards.Nodup) {interner : StringInterner}
    (hNew : ∀ i ∈ shards, interner.shards i = ShardInner.new) :
    ∃ interner' handles, internAll shardIndex interner (shards.map strings) =
        .ok (interner', handles) ∧
      (∀ i ∈ shards, (interner'.shards i).buf.length = 4 + (utf8 (strings i)).length) ∧
      ∀ i ∉ shards, interner'.shards i = interner.shards i := by
  induction shards generalizing interner with
  | nil => exact ⟨interner, [], rfl, by simp, fun _ _ => rfl⟩
  | cons j shards ih =>
      obtain ⟨hj, hNodup⟩ := List.nodup_cons.mp hNodup
      obtain ⟨shard, offset, hIntern, hLength⟩ := ShardInner.exists_intern_new (hFits j)
      -- the first shard is filled, and the others are still new
      let next : StringInterner := { shards := Function.update interner.shards j shard }
      have hFirst : interner.intern shardIndex (strings j) =
          .ok (next, encodeHandle j offset) := by
        rw [intern, hShard, hNew j List.mem_cons_self, hIntern, Exec.ok_bind]
      have hOthers : ∀ i ≠ j, next.shards i = interner.shards i :=
        fun i hi => Function.update_of_ne hi shard interner.shards
      have hNext : ∀ i ∈ shards, next.shards i = ShardInner.new := by
        intro i hi
        rw [hOthers i (by rintro rfl; exact hj hi)]
        exact hNew i (List.mem_cons_of_mem _ hi)
      obtain ⟨last, handles, hRest, hFilled, hKept⟩ := ih hNodup hNext
      refine ⟨last, encodeHandle j offset :: handles, ?_, ?_, ?_⟩
      · rw [List.map_cons, internAll, hFirst, Exec.ok_bind]
        dsimp only
        rw [hRest, Exec.ok_bind]
      · intro i hi
        rcases List.mem_cons.mp hi with rfl | hLater
        · rw [hKept i hj]
          show (Function.update interner.shards i shard i).buf.length = _
          rw [Function.update_self, hLength]
        · exact hFilled i hLater
      · intro i hi
        rw [hKept i fun hLater => hi (List.mem_cons_of_mem _ hLater)]
        exact hOthers i fun hEq => hi (hEq ▸ List.mem_cons_self)

/-- Sixteen strings of `2 ^ 28 - 4` bytes, one for each shard, are accepted and
fill all shards: the last prefix sum does not fit. -/
theorem not_startsExact_paddedStrings :
    ∃ interner handles,
      internAll (paddedShard (2 ^ 28 - 5)) StringInterner.new
        ((List.finRange shardCount).map (paddedString (2 ^ 28 - 5))) = .ok (interner, handles) ∧
      (∀ i, (interner.shards i).buf.length = 2 ^ 28) ∧
      ∀ profile, ¬∃ starts, shardStarts profile 0 interner.shardBufs = .ok starts ∧
        StartsExact interner.shardBufs starts := by
  generalize hPad : 2 ^ 28 - 5 = n
  have hFits : ∀ i, 4 + (utf8 (paddedString n i)).length = 2 ^ 28 := by
    intro i
    rw [length_utf8_paddedString]
    omega
  have hNew : ∀ i ∈ List.finRange shardCount, StringInterner.new.shards i = ShardInner.new :=
    fun _ _ => rfl
  obtain ⟨interner, handles, hRun, hFilled, -⟩ := exists_internAll_of_new
    (paddedShard_paddedString n) (fun i => (hFits i).le) (List.nodup_finRange shardCount) hNew
  have hFull : ∀ i, (interner.shards i).buf.length = 2 ^ 28 :=
    fun i => (hFilled i (List.mem_finRange i)).trans (hFits i)
  refine ⟨interner, handles, hRun, hFull, ?_⟩
  rintro profile ⟨starts, -, hExact⟩
  have hTotal := hExact.total
  rw [← totalBytes_eq, totalBytes_lt_iff fun i => (hFull i).le] at hTotal
  obtain ⟨i, hi⟩ := hTotal
  exact hi.ne (hFull i)

end StringInterner

end Core
end CodebaseMem
