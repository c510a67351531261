import Mftt.Fault
import Mathlib.Data.List.Infix

/-!
# Selecting a prober by the name of a node

`parse_node` looks for a prober of a node with `get_prober_fp`, which compares the name of
each registered prober with the name of the node. The part of a node name behind an '@' is
the address of the unit and takes no part in the comparison. The comparison stops with a
match at the first '@' of either string, so that of the prober's name it has then seen only
as many characters as stand before the '@' in the other.
-/

namespace Mftt

/-- The characters of a string before its NUL. -/
structure NulFree where
  chars : List UInt8
  terminated : 0 ∉ chars
  deriving DecidableEq

/-- The character '@'. -/
abbrev AT : UInt8 := 64

/-- `is_str_match_before_at`. Behind its last character a string has the NUL, which ends the
walk through both when the two are equal so far. -/
def isStrMatchBeforeAt (dst src : List UInt8) : Int :=
  if dst.headD 0 = AT ∨ src.headD 0 = AT then 0
  else if dst.headD 0 ≠ src.headD 0 then if dst.headD 0 < src.headD 0 then -1 else 1
  else
    match dst with
    | [] => 0
    | _ :: rest => isStrMatchBeforeAt rest src.tail

/-- An entry of the section `FDTProbers`: a name, and the address of the prober. -/
structure FdtProber where
  name : NulFree
  prober : Nat
  deriving DecidableEq

/-- `get_prober_fp`; `none` is NULL. -/
def getProberFp (nodeName : NulFree) : List FdtProber → Option Nat
  | [] => none
  | entry :: rest =>
    if isStrMatchBeforeAt entry.name.chars nodeName.chars = 0 then some entry.prober
    else getProberFp nodeName rest

/-- The part of a name before its first '@'. -/
def baseName (name : List UInt8) : List UInt8 := name.takeWhile (· ≠ AT)

/-- The first entry whose name is the base name of the node. -/
def namedProber (nodeName : NulFree) (probers : List FdtProber) : Option FdtProber :=
  probers.find? (fun entry => entry.name.chars = baseName nodeName.chars)

/-- Names match when they are equal up to the '@' of the node name; of a node name without one
the whole has to be equal. -/
theorem match_eq_zero_iff (dst src : List UInt8) (noAt : AT ∉ dst) (dstEnds : 0 ∉ dst)
    (srcEnds : 0 ∉ src) :
    isStrMatchBeforeAt dst src = 0 ↔
      if AT ∈ src then baseName src <+: dst else dst = baseName src := by
  have notNul : ¬ (0 : UInt8) = AT := by decide
  induction dst generalizing src with
  | nil =>
    cases src with
    | nil => simp [isStrMatchBeforeAt, baseName]
    | cons s rest =>
      have character : (0 : UInt8) ≠ s := fun zero => srcEnds (zero ▸ List.mem_cons_self)
      by_cases at_ : s = AT
      · simp [isStrMatchBeforeAt, baseName, at_]
      · have sign : (if (0 : UInt8) < s then (-1 : Int) else 1) ≠ 0 := by split <;> decide
        simp [isStrMatchBeforeAt, baseName, at_, notNul, character, sign]
  | cons d rest ih =>
    have noAtHere : d ≠ AT := fun here => noAt (here ▸ List.mem_cons_self)
    have character : d ≠ 0 := fun zero => dstEnds (zero ▸ List.mem_cons_self)
    cases src with
    | nil =>
      simp [isStrMatchBeforeAt, baseName, noAtHere, notNul, character]
    | cons s others =>
      by_cases at_ : s = AT
      · simp [isStrMatchBeforeAt, baseName, at_]
      · have step := ih others (fun later => noAt (List.mem_cons_of_mem _ later))
          (fun later => dstEnds (List.mem_cons_of_mem _ later))
          (fun later => srcEnds (List.mem_cons_of_mem _ later))
        by_cases same : d = s
        · subst same
          simpa [isStrMatchBeforeAt, baseName, at_, Ne.symm at_] using step
        · have sign : (if d < s then (-1 : Int) else 1) ≠ 0 := by split <;> decide
          simp [isStrMatchBeforeAt, baseName, at_, noAtHere, same, sign, Ne.symm same]

/-- The search goes through the entries in the order of the section. For a node name with an '@'
it finds the first entry whose name begins with the base name. -/
theorem get_prober_fp_eq_find (nodeName : NulFree) (probers : List FdtProber)
    (noAt : ∀ entry ∈ probers, AT ∉ entry.name.chars) :
    getProberFp nodeName probers = (probers.find? (fun entry =>
      if AT ∈ nodeName.chars then baseName nodeName.chars <+: entry.name.chars
      else entry.name.chars = baseName nodeName.chars)).map (·.prober) := by
  induction probers with
  | nil => rfl
  | cons entry rest ih =>
    have matching := match_eq_zero_iff _ _ (noAt entry List.mem_cons_self) entry.name.terminated
      nodeName.terminated
    have later := ih (fun other inside => noAt other (List.mem_cons_of_mem _ inside))
    by_cases unit : AT ∈ nodeName.chars
    · simp only [unit] at matching later ⊢
      by_cases found : baseName nodeName.chars <+: entry.name.chars
      · simp [getProberFp, matching.mpr found, found]
      · simp [getProberFp, matching, found, later]
    · simp only [unit] at matching later ⊢
      by_cases found : entry.name.chars = baseName nodeName.chars
      · rw [getProberFp, if_pos (matching.mpr found)]
        simp [found]
      · simp [getProberFp, matching, found, later]

/-- Entries with the given names whose probers are all different. -/
def numbered (names : List NulFree) : List FdtProber :=
  names.zipIdx.map (fun (name, i) => ⟨name, i⟩)

theorem numbered_names (names : List NulFree) : (numbered names).map (·.name) = names := by
  simp [numbered, Function.comp_def]

theorem numbered_apart (names : List NulFree) {first second : FdtProber}
    (firstIn : first ∈ numbered names) (secondIn : second ∈ numbered names)
    (same : first.prober = second.prober) : first = second := by
  simp only [numbered, List.mem_map, Prod.exists, List.mk_mem_zipIdx_iff_getElem?]
    at firstIn secondIn
  obtain ⟨name, i, here, rfl⟩ := firstIn
  obtain ⟨other, j, there, rfl⟩ := secondIn
  obtain rfl : i = j := same
  cases here.symm.trans there
  rfl

/-- The first name that begins with the base name, if there is one, is the base name. -/
def FirstIsWhole (nodeName : NulFree) (names : List NulFree) : Prop :=
  ∀ name, names.find? (fun name => baseName nodeName.chars <+: name.chars) = some name →
    name.chars = baseName nodeName.chars

/-- With these names the search selects, whatever their probers are, the first entry that has
the base name of the node, and none if there is none, exactly if the node name has no '@' or the
first of the names that begins with the base name is equal to it. -/
theorem get_prober_fp_named_iff (names : List NulFree) (noAt : ∀ name ∈ names, AT ∉ name.chars)
    (nodeName : NulFree) :
    (∀ probers : List FdtProber, probers.map (·.name) = names →
      getProberFp nodeName probers = (namedProber nodeName probers).map (·.prober)) ↔
      AT ∉ nodeName.chars ∨ FirstIsWhole nodeName names := by
  have entryNoAt : ∀ probers : List FdtProber, probers.map (·.name) = names →
      ∀ entry ∈ probers, AT ∉ entry.name.chars := by
    rintro probers rfl entry inside
    exact noAt _ (List.mem_map_of_mem inside)
  by_cases unit : AT ∈ nodeName.chars
  · simp only [unit, not_true_eq_false, false_or]
    constructor
    · intro selects name first
      have names_ := numbered_names names
      have chosen := selects (numbered names) names_
      rw [get_prober_fp_eq_find nodeName _ (entryNoAt _ names_)] at chosen
      simp only [unit, if_true] at chosen
      rw [← names_, List.find?_map] at first
      obtain ⟨entry, found, rfl⟩ := Option.map_eq_some_iff.mp first
      rw [Function.comp_def] at found
      rw [found] at chosen
      obtain ⟨other, named, same⟩ := Option.map_eq_some_iff.mp chosen.symm
      have equal : other = entry := numbered_apart names (List.mem_of_find?_eq_some named)
        (List.mem_of_find?_eq_some found) same
      rw [← equal]
      simpa using List.find?_some named
    · rintro whole probers rfl
      rw [get_prober_fp_eq_find nodeName probers (entryNoAt _ rfl), namedProber]
      simp only [unit, if_true]
      congr 1
      cases found : probers.find? (fun entry => baseName nodeName.chars <+: entry.name.chars) with
      | none =>
        refine (List.find?_eq_none.mpr fun entry inside => ?_).symm
        have longer := List.find?_eq_none.mp found entry inside
        intro same
        simp only [decide_eq_true_eq] at longer same
        exact longer (same ▸ List.prefix_refl _)
      | some entry =>
        have same : entry.name.chars = baseName nodeName.chars := by
          apply whole
          rw [List.find?_map, Function.comp_def, found]
          rfl
        obtain ⟨_, before, after, rfl, earlier⟩ := List.find?_eq_some_iff_append.mp found
        refine (List.find?_eq_some_iff_append.mpr
          ⟨by simpa using same, before, after, rfl, fun other inside => ?_⟩).symm
        have longer := earlier other inside
        simp only [Bool.not_eq_eq_eq_not, Bool.not_true, decide_eq_false_iff_not] at longer ⊢
        exact fun equal => longer (equal ▸ List.prefix_refl _)
  · simp only [unit, not_false_eq_true, true_or, iff_true]
    intro probers named
    rw [get_prober_fp_eq_find nodeName probers (entryNoAt _ named), namedProber]
    simp only [unit, if_false]

/-- The name "memory" of a registered prober. -/
def memoryName : NulFree := ⟨[109, 101, 109, 111, 114, 121], by simp⟩

/-- The node name "mem@0". -/
def memNode : NulFree := ⟨[109, 101, 109, 64, 48], by simp⟩

/-- The only prober, for "memory", is selected for a node with the base name "mem". -/
theorem mem_selects_memory : AT ∉ memoryName.chars ∧
    getProberFp memNode [⟨memoryName, 1⟩] = some 1 ∧
    namedProber memNode [⟨memoryName, 1⟩] = none := by
  decide

/-- The node "memory" has no '@' and is matched by its whole name. -/
theorem memory_selects_memory : getProberFp memoryName [⟨memoryName, 1⟩] =
    (namedProber memoryName [⟨memoryName, 1⟩]).map (·.prober) :=
  (get_prober_fp_named_iff [memoryName] (by decide) memoryName).mpr (.inl (by decide)) _ rfl

end Mftt
