import Haze.Object

/-
  The registry of running instances: a directory with a file for each, named by a port.

  `InstanceRegistryNew` names the file of an instance by the port it is given, and
  `InstanceRegistryGetLastPort` reads the names back with `strtoul`. What it returns is a port
  (`getLastPort_range`), depends on the set of the names only (`getLastPort_eq_of_same_names`),
  and is the least value not below the port of any file (`getLastPort_le_iff`).
-/

open Msgpack

namespace Haze

/-! ## Decimal numbers -/

def isSpace (b : UInt8) : Bool := b = 0x20 || (0x09 ≤ b && b ≤ 0x0d)

def isDigit (b : UInt8) : Bool := 0x30 ≤ b && b ≤ 0x39

def digitsValue (n : Nat) (digits : Bytes) : Nat :=
  digits.foldl (fun n b => n * 10 + (b - 0x30).toNat) n

/-- `strtoul` in base 10, where `ULONG_MAX` is `ulongMax`. -/
def strtoul (ulongMax : Nat) (s : CString) : Nat :=
  let s := s.bytes.dropWhile isSpace
  let negative := s.head? = some 0x2d
  let s := if negative ∨ s.head? = some 0x2b then s.tail else s
  let value := digitsValue 0 (s.takeWhile isDigit)
  -- a value out of range is not negated
  if ulongMax < value then ulongMax
  else if negative then (ulongMax + 1 - value) % (ulongMax + 1)
  else value

/-- The digits of a number. -/
def decimal (n : Nat) : Bytes :=
  if n = 0 then [0x30] else ((Nat.digits 10 n).map fun d => 0x30 + .ofNat d).reverse

theorem isDigit_add {d : Nat} (h : d < 10) :
    isDigit (0x30 + .ofNat d) = true ∧ (0x30 + .ofNat d - 0x30 : UInt8).toNat = d := by
  interval_cases d <;> decide

theorem decimal_digits (n : Nat) : ∀ b ∈ decimal n, isDigit b = true := by
  unfold decimal
  split_ifs with h
  · exact List.forall_mem_singleton.mpr rfl
  · intro b hb
    obtain ⟨d, hd, rfl⟩ := List.mem_map.mp (List.mem_reverse.mp hb)
    exact (isDigit_add (Nat.digits_lt_base (by decide) hd)).1

theorem digitsValue_decimal (n : Nat) : digitsValue 0 (decimal n) = n := by
  unfold decimal digitsValue
  split_ifs with h
  · rw [h]
    decide
  · have hfold : ∀ ds : List Nat, (∀ d ∈ ds, d < 10) →
        List.foldr (fun b n => n * 10 + (b - 0x30).toNat) 0
          (ds.map fun d => (0x30 + .ofNat d : UInt8)) = Nat.ofDigits 10 ds := by
      intro ds hds
      induction ds with
      | nil => rfl
      | cons d ds ih =>
          obtain ⟨hd, hds⟩ := List.forall_mem_cons.mp hds
          rw [List.map_cons, List.foldr_cons, ih hds, (isDigit_add hd).2, Nat.ofDigits_cons]
          omega
    rw [List.foldl_reverse, hfold _ fun d hd => Nat.digits_lt_base (by decide) hd,
      Nat.ofDigits_digits]

/-- `%hu`. -/
def portStr (port : UInt16) : CString where
  bytes := decimal port.toNat
  nulFree h := by
    have hdigit := decimal_digits port.toNat 0 h
    exact absurd hdigit (by decide)

theorem not_space_of_isDigit {b : UInt8} (h : isDigit b = true) :
    isSpace b = false ∧ b ≠ 0x2d ∧ b ≠ 0x2b := by
  have hle : 0x30 ≤ b.toNat := by
    have hboth : 0x30 ≤ b ∧ b ≤ 0x39 := by simpa [isDigit] using h
    exact UInt8.le_iff_toNat_le.mp hboth.1
  refine ⟨?_, ?_, ?_⟩
  · unfold isSpace
    rw [Bool.or_eq_false_iff, Bool.and_eq_false_iff]
    refine ⟨decide_eq_false fun heq => ?_, .inr (decide_eq_false fun hspace => ?_)⟩
    · rw [heq] at hle
      exact absurd hle (by decide)
    · exact absurd (hle.trans (UInt8.le_iff_toNat_le.mp hspace)) (by decide)
  · intro heq
    rw [heq] at hle
    exact absurd hle (by decide)
  · intro heq
    rw [heq] at hle
    exact absurd hle (by decide)

/-- The name of a port is read as the port. -/
theorem strtoul_portStr {ulongMax : Nat} (hmax : 65535 ≤ ulongMax) (port : UInt16) :
    strtoul ulongMax (portStr port) = port.toNat := by
  have hdigits := decimal_digits port.toNat
  have hvalue := digitsValue_decimal port.toNat
  have hport := port.toNat_lt
  unfold strtoul portStr
  dsimp only
  generalize decimal port.toNat = digits at hdigits hvalue
  have hspace : digits.dropWhile isSpace = digits := by
    cases digits with
    | nil => rfl
    | cons b digits =>
        exact List.dropWhile_cons_of_neg
          (by rw [(not_space_of_isDigit (hdigits b List.mem_cons_self)).1]; decide)
  have hsign : ∀ c ∈ digits.head?, c ≠ 0x2d ∧ c ≠ 0x2b := fun c hc =>
    (not_space_of_isDigit (hdigits c (List.mem_of_mem_head? hc))).2
  have hminus : digits.head? ≠ some 0x2d := fun heq => (hsign 0x2d heq).1 rfl
  have hplus : digits.head? ≠ some 0x2b := fun heq => (hsign 0x2b heq).2 rfl
  rw [hspace, if_neg (not_or.mpr ⟨hminus, hplus⟩), List.takeWhile_eq_self_iff.mpr hdigits, hvalue,
    if_neg (by omega), if_neg hminus]

/-! ## The registry -/

/-- The fields of an `InstanceReg` that say where the instance is: the name of its file in the
directory, and the port that is written into it. -/
structure InstanceReg where
  path : CString
  port : UInt16

/-- `InstanceRegistryNew`, and the directory with its file. -/
def instanceRegistryNew (files : List CString) (port : UInt16) : InstanceReg × List CString :=
  ({ path := portStr port, port := port },
    if portStr port ∈ files then files else files ++ [portStr port])

variable (ulongMax : Nat)

/-- What an entry of the directory does to `maxPort`. -/
def lastPortStep (maxPort : Nat) (name : CString) : Nat :=
  if name ≠ .ofString "." ∧ name ≠ .ofString ".." then
    let portVal := strtoul ulongMax name
    if 0 < portVal ∧ portVal ≤ 65535 then
      if maxPort < portVal then portVal else maxPort
    else maxPort
  else maxPort

/-- The directory is `none` where it can not be opened. -/
def instanceRegistryGetLastPort : Option (List CString) → Nat
  | none => 7191
  | some names =>
    let maxPort := names.foldl (lastPortStep ulongMax) 0
    if maxPort = 0 then 7191 else maxPort

/-- The port that a name stands for, `0` for no port. -/
def portOf (name : CString) : Nat := lastPortStep ulongMax 0 name

theorem lastPortStep_eq_max (maxPort : Nat) (name : CString) :
    lastPortStep ulongMax maxPort name = max maxPort (portOf ulongMax name) := by
  unfold portOf lastPortStep
  dsimp only
  split_ifs <;> omega

theorem portOf_le (name : CString) : portOf ulongMax name ≤ 65535 := by
  unfold portOf lastPortStep
  dsimp only
  split_ifs <;> omega

theorem foldl_lastPortStep_le_iff {names : List CString} {maxPort b : Nat} :
    names.foldl (lastPortStep ulongMax) maxPort ≤ b ↔
      maxPort ≤ b ∧ ∀ name ∈ names, portOf ulongMax name ≤ b := by
  induction names generalizing maxPort with
  | nil => simp
  | cons name names ih =>
      rw [List.foldl_cons, ih, lastPortStep_eq_max, max_le_iff, List.forall_mem_cons, and_assoc]

theorem getLastPort_range (dir : Option (List CString)) :
    1 ≤ instanceRegistryGetLastPort ulongMax dir ∧
      instanceRegistryGetLastPort ulongMax dir ≤ 65535 := by
  cases dir with
  | none => exact (by decide : 1 ≤ 7191 ∧ 7191 ≤ 65535)
  | some names =>
      have hmax : names.foldl (lastPortStep ulongMax) 0 ≤ 65535 :=
        (foldl_lastPortStep_le_iff ulongMax).mpr ⟨by decide, fun name _ => portOf_le ulongMax name⟩
      unfold instanceRegistryGetLastPort
      dsimp only
      split_ifs with h <;> omega

/-- The order of the entries does not matter. -/
theorem getLastPort_eq_of_same_names {names names' : List CString}
    (h : ∀ name, name ∈ names' ↔ name ∈ names) :
    instanceRegistryGetLastPort ulongMax (some names') =
      instanceRegistryGetLastPort ulongMax (some names) := by
  have hmax : names'.foldl (lastPortStep ulongMax) 0 = names.foldl (lastPortStep ulongMax) 0 := by
    apply eq_of_forall_ge_iff
    intro b
    rw [foldl_lastPortStep_le_iff, foldl_lastPortStep_le_iff]
    simp only [h]
  unfold instanceRegistryGetLastPort
  dsimp only
  rw [hmax]

/-- With a port in the directory the last one is the greatest. -/
theorem getLastPort_le_iff {names : List CString} {b : Nat}
    (h : ∃ name ∈ names, 0 < portOf ulongMax name) :
    instanceRegistryGetLastPort ulongMax (some names) ≤ b ↔
      ∀ name ∈ names, portOf ulongMax name ≤ b := by
  have hne : names.foldl (lastPortStep ulongMax) 0 ≠ 0 := by
    intro h0
    obtain ⟨name, hname, hpos⟩ := h
    have hzero := ((foldl_lastPortStep_le_iff ulongMax).mp h0.le).2 name hname
    omega
  unfold instanceRegistryGetLastPort
  dsimp only
  rw [if_neg hne, foldl_lastPortStep_le_iff]
  exact and_iff_right (Nat.zero_le b)

theorem portStr_ne {port : UInt16} {name : CString} (hdot : 0x2e ∈ name.bytes) :
    portStr port ≠ name := by
  intro heq
  rw [← heq] at hdot
  exact absurd (decimal_digits port.toNat 0x2e hdot) (by decide)

/-- The file of an instance stands for its port. -/
theorem portOf_portStr {ulongMax : Nat} (hmax : 65535 ≤ ulongMax) (port : UInt16) :
    portOf ulongMax (portStr port) = port.toNat := by
  have hport := port.toNat_lt
  unfold portOf lastPortStep
  dsimp only
  rw [if_pos ⟨portStr_ne (by decide), portStr_ne (by decide)⟩, strtoul_portStr hmax]
  split_ifs <;> omega

theorem portStr_injective : Function.Injective portStr := by
  intro a b h
  have hstr := strtoul_portStr le_rfl b
  rw [← h, strtoul_portStr le_rfl] at hstr
  exact UInt16.toNat_inj.mp hstr

end Haze
