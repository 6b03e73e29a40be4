import Flowgraph.Code.LabelSupply
import Mathlib.Data.List.Nodup
import Std.Data.String.ToNat

/-!
# Minted labels are fresh

The number of a minted label can be read back (`LabelSupply.numberOf?_label`). A supply made for a
unit has therefore moved past every label of the unit that looks like a minted one, and what it
mints is new there (`LabelSupply.drawn_labels_fresh`).
-/

namespace Flowgraph

open List

/-! ### Labels that occur in a program -/

/-- A label is defined in a statement, or gone to. -/
inductive Stmt.Mentions (name : String) : Stmt → Prop where
  | label (span : Span) : Mentions name (.instr (.label name) span)
  | jump (span : Span) : Mentions name (.instr (.jump name) span)
  | branch (cond : Expr) (span : Span) : Mentions name (.instr (.branch cond name) span)
  | inside {body : List Stmt} {span : Span} {stmt : Stmt} : stmt ∈ body → Mentions name stmt →
      Mentions name (.seq body span)

/-- A label occurs in the body of some function. -/
def CodeUnit.Mentions (unit : CodeUnit) (name : String) : Prop :=
  ∃ (key : String) (function : Function),
    unit.functions[key]? = some function ∧ function.body.Mentions name

namespace Stmt

variable {name : String}

/-- The code of a body is that of its statements. -/
theorem mem_codeList {instr : Instr} {body : List Stmt} :
    instr ∈ codeList body ↔ ∃ stmt ∈ body, instr ∈ stmt.code := by
  induction body with
  | nil => simp [codeList]
  | cons first rest ih => simp [codeList, ih]

/-- The labels of a statement are listed however deep it is nested. -/
theorem Mentions.mem_labels {stmt : Stmt} (h : stmt.Mentions name) : name ∈ stmt.labels := by
  induction h with
  | label | jump | branch => simp [labels, code, Instr.label?]
  | inside hmem _ ih =>
    obtain ⟨instr, hinstr, hlabel⟩ := mem_filterMap.mp ih
    refine mem_filterMap.mpr ⟨instr, ?_, hlabel⟩
    rw [code]
    exact mem_codeList.mpr ⟨_, hmem, hinstr⟩

end Stmt

/-- Names that are mentioned are collected. -/
theorem CodeUnit.Mentions.mem_labels {unit : CodeUnit} {name : String} (h : unit.Mentions name) :
    name ∈ unit.functionList.flatMap (·.body.labels) := by
  obtain ⟨key, function, hkey, hbody⟩ := h
  exact mem_flatMap.mpr ⟨function, mem_functionList.mpr ⟨key, hkey⟩, hbody.mem_labels⟩

namespace LabelSupply

variable {supply : LabelSupply} {number : Nat}

/-! ### Numbers of minted labels -/

/-- Different numbers give different labels. -/
theorem label_injective {m n : Nat} (h : label m = label n) : m = n := by
  simpa [label] using h

/-- The number of a minted label can be read back. -/
theorem numberOf?_label (h : number ≤ limit) : numberOf? (label number) = some number := by
  have hdigits : ∀ digit ∈ Nat.toDigits 10 number, digit.isDigit := fun _ hdigit =>
    Nat.isDigit_of_mem_toDigits (by decide) (by decide) hdigit
  have hvalue : decimal (Nat.toDigits 10 number) = number :=
    Nat.ofDigitChars_toDigits (by decide) (by decide)
  have htext : (label number).toList = '_' :: 'l' :: Nat.toDigits 10 number := by
    simp [label, Nat.toString_eq_repr, Nat.toList_repr]
  have hsign : ∀ rest, Nat.toDigits 10 number ≠ '+' :: rest := by
    intro rest heq
    have hplus := hdigits '+' (heq ▸ mem_cons_self)
    exact absurd hplus (by decide)
  rw [numberOf?, htext]
  show number? (Nat.toDigits 10 number) = some number
  unfold number?
  split
  next rest heq => exact absurd heq (hsign rest)
  · simpa [hvalue, Nat.toDigits_ne_nil, h] using hdigits

/-! ### Supplies that avoid labels -/

/-- Avoiding a name never steps back. -/
theorem next_le_avoid (supply : LabelSupply) (name : String) :
    supply.next ≤ (supply.avoid name).next := by
  unfold avoid
  split
  · exact Nat.le_max_left ..
  · exact Nat.le_refl _

/-- Avoiding names never steps back. -/
theorem next_le_foldl_avoid (supply : LabelSupply) (names : List String) :
    supply.next ≤ (names.foldl avoid supply).next := by
  induction names generalizing supply with
  | nil => exact Nat.le_refl _
  | cons name rest ih => exact Nat.le_trans (supply.next_le_avoid name) (ih (supply.avoid name))

/-- Avoiding labels moves past all that can be minted. -/
theorem lt_next_avoiding {names : List String} {name : String} (hname : name ∈ names)
    (hnumber : numberOf? name = some number) (hlimit : number < limit) :
    number < (avoiding names).next := by
  obtain ⟨front, back, rfl⟩ := append_of_mem hname
  rw [avoiding, foldl_append, foldl_cons]
  refine Nat.lt_of_lt_of_le ?_ (next_le_foldl_avoid _ back)
  rw [avoid, hnumber]
  show number < max _ (min (number + 1) limit)
  omega

/-- Avoiding names stays within the limit. -/
theorem next_foldl_avoid_le (hsupply : supply.next ≤ limit) (names : List String) :
    (names.foldl avoid supply).next ≤ limit := by
  induction names generalizing supply with
  | nil => exact hsupply
  | cons name rest ih =>
    refine ih ?_
    unfold avoid
    split
    · show max supply.next (min _ limit) ≤ limit
      omega
    · exact hsupply

/-- A supply starts within the limit. -/
theorem next_ofUnit_le (unit : CodeUnit) : (ofUnit unit).next ≤ limit :=
  next_foldl_avoid_le (Nat.zero_le limit) _

/-! ### Drawing labels -/

/-- A supply has a number of labels left. -/
def Covers (supply : LabelSupply) (count : Nat) : Prop :=
  count = 0 ∨ supply.next + count ≤ limit

instance (count : Nat) : Decidable (supply.Covers count) :=
  inferInstanceAs (Decidable (count = 0 ∨ supply.next + count ≤ limit))

/-- The supply that is left after a number of labels. -/
def after (supply : LabelSupply) (count : Nat) : LabelSupply :=
  ⟨supply.next + count⟩

/-- Labels can be skipped in two steps. -/
theorem after_add (supply : LabelSupply) (first rest : Nat) :
    supply.after (first + rest) = (supply.after first).after rest := by
  unfold after
  rw [Nat.add_assoc]

/-- Covering two demands is covering them in turn. -/
theorem covers_add {first rest : Nat} :
    supply.Covers (first + rest) ↔ supply.Covers first ∧ (supply.after first).Covers rest := by
  unfold Covers after
  show _ ↔ _ ∧ (rest = 0 ∨ supply.next + first + rest ≤ limit)
  omega

/-- The labels with the next numbers of a supply. -/
def upcoming (supply : LabelSupply) (count : Nat) : List String :=
  (List.range' supply.next count).map label

/-- Upcoming labels are different. -/
theorem nodup_upcoming (supply : LabelSupply) (count : Nat) : (supply.upcoming count).Nodup :=
  (nodup_range' ..).map fun _ _ heq => label_injective heq

/-- As many labels can be drawn as are covered, with the next numbers. -/
theorem draw?_eq (supply : LabelSupply) (count : Nat) :
    supply.draw? count =
      if supply.Covers count then some (supply.upcoming count, supply.after count) else none := by
  induction count generalizing supply with
  | zero => rfl
  | succ count ih =>
    rw [draw?, fresh?, Nat.add_comm count 1]
    by_cases hnext : supply.next < limit
    · have hcovers : supply.Covers (1 + count) ↔ (supply.after 1).Covers count := by
        rw [covers_add]
        exact and_iff_right (.inr hnext)
      rw [if_pos hnext, after_add, if_congr hcovers rfl rfl]
      show ((supply.after 1).draw? count).map _ = _
      rw [ih]
      split
      · rw [Option.map_some, upcoming, upcoming, Nat.add_comm 1 count, range'_succ,
          map_cons]
        rfl
      · rfl
    · have hcovers : ¬ supply.Covers (1 + count) := by
        unfold Covers
        omega
      rw [if_neg hnext, if_neg hcovers]

/-- What a supply for a unit mints does not occur in the unit. -/
theorem not_mentions_of_ofUnit {unit : CodeUnit} (hnumber : (ofUnit unit).next ≤ number)
    (hlimit : number < limit) : ¬ unit.Mentions (label number) := by
  intro hmentions
  have hlt : number < (ofUnit unit).next :=
    lt_next_avoiding hmentions.mem_labels (numberOf?_label (Nat.le_of_lt hlimit)) hlimit
  omega

/-- Labels can be drawn from the supply for a unit as long as their numbers stay below the limit.
They are different from each other, and none of them is defined or gone to anywhere in the unit. -/
theorem drawn_labels_fresh (unit : CodeUnit) (count : Nat) :
    (((ofUnit unit).draw? count).isSome ↔ (ofUnit unit).next + count ≤ limit) ∧
      ∀ labels rest, (ofUnit unit).draw? count = some (labels, rest) →
        labels.length = count ∧ labels.Nodup ∧ ∀ label ∈ labels, ¬ unit.Mentions label := by
  have hnext := next_ofUnit_le unit
  have hcovers : (ofUnit unit).Covers count ↔ (ofUnit unit).next + count ≤ limit := by
    unfold Covers
    omega
  rw [draw?_eq, if_congr hcovers rfl rfl]
  split
  next hlimit =>
    refine ⟨iff_of_true rfl hlimit, fun labels rest hdrawn => ?_⟩
    cases hdrawn
    refine ⟨by simp [upcoming], nodup_upcoming _ count, fun name hname => ?_⟩
    obtain ⟨number, hnumber, rfl⟩ := mem_map.mp hname
    obtain ⟨hlow, hhigh⟩ := mem_range'_1.mp hnumber
    exact not_mentions_of_ofUnit hlow (by omega)
  next hlimit => exact ⟨iff_of_false Bool.false_ne_true hlimit, fun _ _ hdrawn => by cases hdrawn⟩

/-- Numbered labels in nested sequences, with a sign, with zeros in front, with a letter behind and
beyond the limit. -/
def numbered : CodeUnit :=
  CodeUnit.add { name := "test" } ⟨"main", .seq [
    .instr (.label "_l007") .dummy,
    .seq [.instr (.jump "_l+9") .dummy, .seq [.instr (.branch (.temp "x") "_l8é") .dummy] .dummy]
      .dummy,
    .instr (.label "_l4294967296") .dummy] .dummy⟩

/-- A unit with a label of its own. -/
theorem drawn_labels_fresh_numbered :
    (ofUnit numbered).draw? 2 = some (["_l10", "_l11"], ⟨12⟩) ∧ ¬ numbered.Mentions "_l10" ∧
      ((ofUnit numbered).draw? 4294967286).isSome = false := by
  have hdrawn : (ofUnit numbered).draw? 2 = some (["_l10", "_l11"], ⟨12⟩) := by decide +kernel
  obtain ⟨-, -, hfresh⟩ := (drawn_labels_fresh numbered 2).2 _ _ hdrawn
  refine ⟨hdrawn, hfresh _ mem_cons_self, ?_⟩
  rw [← Bool.not_eq_true, (drawn_labels_fresh numbered 4294967286).1]
  decide +kernel

end LabelSupply

end Flowgraph
