import CodebaseMem.Library.Joining
import CodebaseMem.Parser.Listing

/-!
# Qualified names and scopes

A separator keeps the names of the scopes apart, so a qualified name determines the
scopes and the name it was made of.  The specification of C opens named scopes for
structs and unions and has the empty separator: there a field `bc` of a struct `a` and a
field `c` of a struct `ab` have one qualified name.

* `Disambiguated`: two qualified names are equal exactly when the names and the scopes
  are.
* `qualify_eq_iff_of_free`: this holds for a separator whose first character occurs in
  none of the parts.
* `forall_disambiguated_iff`: over all scopes and identifiers it holds exactly in the
  registered languages whose separator is not empty, which are all but C.

The kinds of the scopes do not enter a qualified name, so only the names are compared,
and the empty ones are left out on both sides.
-/

namespace CodebaseMem
namespace Parser

open CodebaseMem.Core Library

/-- The non-empty names of the segments, outermost first. -/
def segmentNames (key : ScopeKey) : List String :=
  (key.segments.map ScopeSegment.name).filter fun s => !s.isEmpty

/-- The names that a qualified name is made of. -/
def nameParts (key : ScopeKey) (name : String) : List String := segmentNames key ++ [name]

/-- The characters of an identifier leave out those of the separators. -/
def FreeOfSeparators (s : String) : Prop := ∀ c ∈ s.toList, c ≠ ':' ∧ c ≠ '.'

instance (s : String) : Decidable (FreeOfSeparators s) :=
  List.decidableBAll (fun c => c ≠ ':' ∧ c ≠ '.') s.toList

/-- The qualified names are equal exactly when the names and the scopes are. -/
def Disambiguated (spec : LanguageSpec) (key key' : ScopeKey) (name name' : String) : Prop :=
  key.qualify name spec.qnSeparator = key'.qualify name' spec.qnSeparator ↔
    name = name' ∧ segmentNames key = segmentNames key'

section

variable {key key' : ScopeKey} {name name' : String}

theorem nameParts_eq_iff :
    nameParts key name = nameParts key' name' ↔
      name = name' ∧ segmentNames key = segmentNames key' := by
  rw [nameParts, nameParts, List.append_singleton_inj, and_comm]

theorem toList_qualify (key : ScopeKey) (name separator : String) :
    (key.qualify name separator).toList =
      separator.toList.intercalate ((nameParts key name).map String.toList) := by
  rw [qualify_eq_intercalate, String.toList_intercalate]
  rfl

theorem qualify_eq_iff {separator : String} :
    key.qualify name separator = key'.qualify name' separator ↔
      separator.toList.intercalate ((nameParts key name).map String.toList) =
        separator.toList.intercalate ((nameParts key' name').map String.toList) := by
  rw [← String.toList_inj, toList_qualify, toList_qualify]

/-- A separator whose first character occurs in no part tells the parts apart.  The empty
separator has no first character, so it is not covered. -/
theorem qualify_eq_iff_of_free {separator : String} {head : Char} {tail : List Char}
    (hSeparator : separator.toList = head :: tail) (hHead : head = ':' ∨ head = '.')
    (hKey : ∀ s ∈ segmentNames key, FreeOfSeparators s) (hName : FreeOfSeparators name)
    (hKey' : ∀ s ∈ segmentNames key', FreeOfSeparators s) (hName' : FreeOfSeparators name') :
    key.qualify name separator = key'.qualify name' separator ↔
      name = name' ∧ segmentNames key = segmentNames key' := by
  have hFree : ∀ {s : String}, FreeOfSeparators s → head ∉ s.toList := by
    intro s hs hMem
    rcases hHead with rfl | rfl
    · exact (hs _ hMem).1 rfl
    · exact (hs _ hMem).2 rfl
  have hParts : ∀ {key : ScopeKey} {name : String},
      (∀ s ∈ segmentNames key, FreeOfSeparators s) → FreeOfSeparators name →
        ∀ piece ∈ (nameParts key name).map String.toList, head ∉ piece := by
    intro key name hKey hName piece hPiece
    obtain ⟨s, hs, rfl⟩ := List.mem_map.mp hPiece
    rcases List.mem_append.mp hs with hSegment | hLast
    · exact hFree (hKey s hSegment)
    · rw [List.mem_singleton.mp hLast]
      exact hFree hName
  have hToList : Function.Injective String.toList := fun s t h => String.toList_inj.mp h
  rw [qualify_eq_iff, hSeparator, intercalate_inj (hParts hKey hName) (hParts hKey' hName')
    (by simp [nameParts]) (by simp [nameParts]), (List.map_injective_iff.mpr hToList).eq_iff,
    nameParts_eq_iff]

end

/-- The registered separators are empty or begin with a character that no identifier
contains. -/
theorem qnSeparator_cases {spec : LanguageSpec}
    (hSpec : spec ∈ Specs.registered.map Prod.snd) :
    spec.qnSeparator = "" ∨
      ∃ head tail, spec.qnSeparator.toList = head :: tail ∧ (head = ':' ∨ head = '.') := by
  have hAll : ∀ spec ∈ Specs.registered.map Prod.snd,
      spec.qnSeparator = "" ∨ spec.qnSeparator = "::" ∨ spec.qnSeparator = "." := by decide
  rcases hAll spec hSpec with hEmpty | hColons | hDot
  · exact Or.inl hEmpty
  · exact Or.inr ⟨':', [':'], by rw [hColons]; rfl, Or.inl rfl⟩
  · exact Or.inr ⟨'.', [], by rw [hDot]; rfl, Or.inr rfl⟩

/-- A scope stack of structs with the given names. -/
def structScopes (names : List String) : ScopeKey :=
  ⟨names.map fun name => ⟨"struct_specifier", name⟩⟩

/-- Without a separator two fields of two structs may share their qualified name. -/
theorem qualify_structScopes_empty :
    (structScopes ["a"]).qualify "bc" "" = (structScopes ["ab"]).qualify "c" "" := by decide

/-- The languages whose qualified names determine the scopes are those with a
separator. -/
theorem forall_disambiguated_iff {spec : LanguageSpec}
    (hSpec : spec ∈ Specs.registered.map Prod.snd) :
    (∀ key key' name name', (∀ s ∈ segmentNames key, FreeOfSeparators s) →
      FreeOfSeparators name → (∀ s ∈ segmentNames key', FreeOfSeparators s) →
      FreeOfSeparators name' → Disambiguated spec key key' name name') ↔
      spec.qnSeparator ≠ "" := by
  constructor
  · intro hAll hEmpty
    have hIff := hAll (structScopes ["a"]) (structScopes ["ab"]) "bc" "c" (by decide) (by decide)
      (by decide) (by decide)
    rw [Disambiguated, hEmpty] at hIff
    exact absurd (hIff.mp qualify_structScopes_empty).1 (by decide)
  · intro hNonempty key key' name name' hKey hName hKey' hName'
    obtain ⟨head, tail, hSeparator, hHead⟩ := (qnSeparator_cases hSpec).resolve_left hNonempty
    exact qualify_eq_iff_of_free hSeparator hHead hKey hName hKey' hName'

/-- Rust tells two levels of scopes and one level apart, and C has scopes that it does
not tell apart. -/
theorem forall_disambiguated_rust :
    Disambiguated Specs.rust (structScopes ["a", "b"]) (structScopes ["ab"]) "c" "c" ∧
      ¬∀ key key' name name', (∀ s ∈ segmentNames key, FreeOfSeparators s) →
        FreeOfSeparators name → (∀ s ∈ segmentNames key', FreeOfSeparators s) →
        FreeOfSeparators name' → Disambiguated Specs.c key key' name name' := by
  constructor
  · exact (forall_disambiguated_iff (by decide)).mpr (by decide) _ _ _ _ (by decide) (by decide)
      (by decide) (by decide)
  · intro hAll
    exact (forall_disambiguated_iff (by decide)).mp hAll rfl

/-- In C a struct opens a named scope, and a field `bc` of a struct `a` has the qualified
name of a field `c` of a struct `ab`. -/
theorem not_disambiguated_c :
    (Specs.c.getScopeAnchor "struct_specifier").isSome = true ∧
      ¬Disambiguated Specs.c (structScopes ["a"]) (structScopes ["ab"]) "bc" "c" := by
  refine ⟨by decide, fun hIff => ?_⟩
  exact absurd (hIff.mp qualify_structScopes_empty).1 (by decide)

end Parser
end CodebaseMem
