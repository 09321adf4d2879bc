import Haze.Cpp.ObjectPlaces

/-
  `std::remove_if` over the entries of a table, as `MapRemove` calls it: the predicate compares
  the key of an entry with a key that it has by reference.

  The entries that stay move to the front one by one, and the key may be among what moves. One
  that is in an entry itself is compared after it has been moved or overwritten, with an outcome
  that is not specified. One below an entry moves with it, but where its entry is overwritten
  it is gone, and the next comparison is not defined (`removeIf_iff`).
-/

namespace Haze.Cpp

/-- Where a call does not return: there is no such object, `std::get` throws, or what it does is
not defined. -/
inductive Stop where
  | absent
  | badVariantAccess
  | undefined

def given {α : Type} (stop : Stop) : Option α → Except Stop α
  | some a => .ok a
  | none => .error stop

/-! ## Where the key is -/

/-- Where the key of a removal is while entries move: away from the table, around it, or in the
entry at an index, as its key or value or `below` these. A key that has been moved may hold
anything, and one below an entry that is overwritten is gone. -/
inductive KeyAt where
  | away
  | around
  | entry (index : Nat) (below : Bool)
  | moved
  | gone

/-- The key at `key`, seen from the table of the object at `this`. -/
def Place.keyAt (this key : Place) : KeyAt :=
  if key = this ∨ key.Contains this then .around
  else if this.Contains key then
    match key.path.drop this.path.length with
    | .key i :: rest | .value i :: rest => .entry i (rest ≠ [])
    | _ => .away
  else .away

/-- Entry `i` moves to `result`. What is below an entry moves along with it. -/
def KeyAt.move (result i : Nat) : KeyAt → KeyAt
  | .away => .away
  | .around => .moved
  | .entry j below =>
    if j = result then if below then .gone else .moved
    else if j = i then if below then .away else .moved
    else .entry j below
  | .moved => .moved
  | .gone => .gone

/-! ## The loop -/

/-- Whether entry `i` has the key. What a key compares to after it has moved is not specified:
`answers` says. -/
def KeyAt.compare (key : ObjectFields) (answers : Nat → Bool) (i : Nat) (entry : MapEntry) :
    KeyAt → Except Stop Bool
  | .moved => .ok (answers i)
  | .gone => .error .undefined
  | _ => given .badVariantAccess (entry.1.equal key)

/-- The loop over the entries from `i` on, the next one that stays going to `result`. -/
def removeIf (key : ObjectFields) (answers : Nat → Bool) (result i : Nat) (keyAt : KeyAt) :
    List MapEntry → Except Stop (List MapEntry)
  | [] => .ok []
  | entry :: map => do
    if ← keyAt.compare key answers i entry then removeIf key answers result (i + 1) keyAt map
    else
      let keyAt := if result = i then keyAt else keyAt.move result i
      return entry :: (← removeIf key answers (result + 1) (i + 1) keyAt map)

/-- Entry `j` has the key, and so many entries in front of the last one have not that one of them
comes to its place. -/
def Overwritten (key : ObjectFields) (map : List MapEntry) (j : Nat) : Prop :=
  (∃ entry ∈ map[j]?, entry.1.equal key = some true) ∧
    j < map.dropLast.countP fun entry => entry.1.equal key = some false

section RemoveIf

variable {key : ObjectFields} {answers : Nat → Bool} {result i j : Nat} {keyAt : KeyAt}
  {entry : MapEntry} {map : List MapEntry}

theorem removeIf_cons_of_true (h : keyAt.compare key answers i entry = .ok true) :
    removeIf key answers result i keyAt (entry :: map) =
      removeIf key answers result (i + 1) keyAt map := by
  rw [removeIf, h]
  rfl

theorem map_eq_undefined_iff {α β : Type} {f : α → β} {result : Except Stop α} :
    result.map f = .error .undefined ↔ result = .error .undefined := by
  cases result with
  | ok a => exact iff_of_false nofun nofun
  | error stop => simp [Except.map]

theorem removeIf_cons_of_false (h : keyAt.compare key answers i entry = .ok false) :
    removeIf key answers result i keyAt (entry :: map) =
      (removeIf key answers (result + 1) (i + 1)
        (if result = i then keyAt else keyAt.move result i) map).map (entry :: ·) := by
  rw [removeIf, h]
  show (removeIf key answers (result + 1) (i + 1) _ map >>= _) = _
  cases removeIf key answers (result + 1) (i + 1)
    (if result = i then keyAt else keyAt.move result i) map <;> rfl

/-- A key that is still there is compared. -/
theorem compare_eq_ok (answers : Nat → Bool) (i : Nat) (hkey : key.Consistent)
    (hentry : entry.1.Consistent) (hgone : keyAt ≠ .gone) :
    ∃ same, keyAt.compare key answers i entry = .ok same := by
  obtain ⟨same, hsame⟩ := Option.isSome_iff_exists.mp (hentry.equal hkey)
  cases keyAt with
  | gone => exact absurd rfl hgone
  | moved => exact ⟨answers i, rfl⟩
  | _ =>
      show ∃ same, given .badVariantAccess (entry.1.equal key) = .ok same
      rw [hsame]
      exact ⟨same, rfl⟩

/-- The entries that stay are some of the table, in order. -/
theorem removeIf_spec (answers : Nat → Bool) (result i : Nat) (keyAt : KeyAt)
    (hkey : key.Consistent) (hkeys : ∀ entry ∈ map, entry.1.Consistent) :
    (∃ kept, removeIf key answers result i keyAt map = .ok kept ∧ kept.Sublist map) ∨
      removeIf key answers result i keyAt map = .error .undefined := by
  induction map generalizing result i keyAt with
  | nil => exact .inl ⟨[], rfl, List.Sublist.slnil⟩
  | cons entry map ih =>
      obtain ⟨hentry, hkeys⟩ := List.forall_mem_cons.mp hkeys
      by_cases hgone : keyAt = .gone
      · rw [hgone]
        exact .inr rfl
      obtain ⟨same, hcompare⟩ := compare_eq_ok answers i hkey hentry hgone
      cases same with
      | true =>
          rw [removeIf_cons_of_true hcompare]
          obtain ⟨kept, hkept, hsub⟩ | hundefined := ih _ _ _ hkeys
          · exact .inl ⟨kept, hkept, hsub.cons entry⟩
          · exact .inr hundefined
      | false =>
          rw [removeIf_cons_of_false hcompare]
          obtain ⟨kept, hkept, hsub⟩ | hundefined := ih _ _ _ hkeys
          · rw [hkept]
            exact .inl ⟨entry :: kept, rfl, hsub.cons_cons entry⟩
          · rw [hundefined]
            exact .inr rfl

/-- Only a key below an entry can go. -/
theorem move_stays (hgone : keyAt ≠ .gone) (hbelow : ∀ j, keyAt ≠ .entry j true) :
    keyAt.move result i ≠ .gone ∧ ∀ j, keyAt.move result i ≠ .entry j true := by
  cases keyAt with
  | gone => exact absurd rfl hgone
  | entry j below =>
      cases below with
      | true => exact absurd rfl (hbelow j)
      | false =>
          show (if j = result then KeyAt.moved else if j = i then .moved else .entry j false) ≠ _ ∧
            ∀ j', (if j = result then KeyAt.moved else if j = i then .moved else .entry j false) ≠ _
          split_ifs <;> simp
  | _ => exact ⟨nofun, nofun⟩

/-- A key that is not below an entry is there to be compared with all of them. -/
theorem removeIf_ne_undefined (hkey : key.Consistent) (hkeys : ∀ entry ∈ map, entry.1.Consistent)
    (hgone : keyAt ≠ .gone) (hbelow : ∀ j, keyAt ≠ .entry j true) :
    removeIf key answers result i keyAt map ≠ .error .undefined := by
  induction map generalizing result i keyAt with
  | nil => nofun
  | cons entry map ih =>
      obtain ⟨hentry, hkeys⟩ := List.forall_mem_cons.mp hkeys
      obtain ⟨same, hcompare⟩ := compare_eq_ok answers i hkey hentry hgone
      cases same with
      | true =>
          rw [removeIf_cons_of_true hcompare]
          exact ih hkeys hgone hbelow
      | false =>
          have hstays : (if result = i then keyAt else keyAt.move result i) ≠ .gone ∧
              ∀ j, (if result = i then keyAt else keyAt.move result i) ≠ .entry j true := by
            split_ifs
            · exact ⟨hgone, hbelow⟩
            · exact move_stays hgone hbelow
          have hrest := @ih (result + 1) (i + 1) _ hkeys hstays.1 hstays.2
          rw [removeIf_cons_of_false hcompare, Ne, map_eq_undefined_iff]
          exact hrest

theorem has_key_cons_iff {same : Bool} (hsame : entry.1.equal key = some same) :
    (i ≤ j → ∃ e ∈ (entry :: map)[j - i]?, e.1.equal key = some true) ↔
      (j = i → same = true) ∧ (i + 1 ≤ j → ∃ e ∈ map[j - (i + 1)]?, e.1.equal key = some true) := by
  rcases lt_trichotomy j i with hij | rfl | hij
  · simp [Nat.not_le_of_lt hij, hij.ne, Nat.not_le_of_lt (Nat.lt_succ_of_lt hij)]
  · simp [hsame]
  · rw [show j - i = j - (i + 1) + 1 by omega, List.getElem?_cons_succ]
    simp [hij.le, hij.ne', Nat.succ_le_of_lt hij]

theorem countP_dropLast_cons (p : MapEntry → Bool) :
    (entry :: map).dropLast.countP p =
      map.dropLast.countP p + if p entry ∧ map ≠ [] then 1 else 0 := by
  cases map with
  | nil => simp
  | cons next map =>
      rw [List.dropLast_cons_of_ne_nil (List.cons_ne_nil next map), List.countP_cons]
      simp

/-- Entry `i` has moved to `result`, and neither is entry `j`. -/
theorem overwritten_succ_iff {found : Prop} {count : Nat} (hj : j ≠ result) (hji : j ≠ i)
    (hempty : map = [] → count = 0) :
    result + 1 ≤ j ∧ found ∧ j - (result + 1) < count ↔
      result ≤ j ∧ ((j = i → false = true) ∧ found) ∧
        j - result < count + if map = [] then 0 else 1 := by
  have hle : result + 1 ≤ j ↔ result ≤ j := by omega
  have hcount : result ≤ j →
      (j - (result + 1) < count ↔ j - result < count + if map = [] then 0 else 1) := by
    intro hle
    split_ifs with hmap
    · rw [hempty hmap]
      omega
    · omega
  rw [hle]
  constructor
  · intro ⟨hle, hfound, hlt⟩
    exact ⟨hle, ⟨fun h => absurd h hji, hfound⟩, (hcount hle).mp hlt⟩
  · intro ⟨hle, ⟨_, hfound⟩, hlt⟩
    exact ⟨hle, hfound, (hcount hle).mpr hlt⟩

/-- A key below entry `j` is gone before the loop ends exactly when the entry has been overwritten
by then. -/
theorem removeIf_below_iff (answers : Nat → Bool) (hkey : key.Consistent)
    (hkeys : ∀ entry ∈ map, entry.1.Consistent) (hle : result ≤ i) :
    removeIf key answers result i (.entry j true) map = .error .undefined ↔
      result ≤ j ∧ (i ≤ j → ∃ entry ∈ map[j - i]?, entry.1.equal key = some true) ∧
        j - result < map.dropLast.countP fun entry => entry.1.equal key = some false := by
  induction map generalizing result i with
  | nil =>
      refine iff_of_false nofun fun h => ?_
      exact absurd h.2.2 (Nat.not_lt_zero _)
  | cons entry map ih =>
      obtain ⟨hentry, hkeys⟩ := List.forall_mem_cons.mp hkeys
      obtain ⟨same, hsame⟩ := Option.isSome_iff_exists.mp (hentry.equal hkey)
      have hcompare : (KeyAt.entry j true).compare key answers i entry = .ok same := by
        show given .badVariantAccess (entry.1.equal key) = .ok same
        rw [hsame]
        rfl
      rw [has_key_cons_iff hsame, countP_dropLast_cons]
      cases same with
      | true =>
          rw [removeIf_cons_of_true hcompare, ih hkeys (hle.trans (Nat.le_succ i))]
          simp [hsame]
      | false =>
          have hempty : map = [] →
              map.dropLast.countP (fun entry => entry.1.equal key = some false) = 0 := by
            rintro rfl
            rfl
          have hstays : (if decide (entry.1.equal key = some false) = true ∧ map ≠ [] then 1
              else 0) = if map = [] then 0 else 1 := by
            by_cases hmap : map = [] <;> simp [hsame, hmap]
          rw [removeIf_cons_of_false hcompare, map_eq_undefined_iff, hstays]
          by_cases hresult : result = i
          · -- no entry has gone so far, and none moves
            rw [if_pos hresult, ih hkeys (Nat.succ_le_succ hle)]
            obtain rfl := hresult
            by_cases hj : j = result
            · exact iff_of_false (by omega) fun h => Bool.false_ne_true (h.2.1.1 hj)
            · exact overwritten_succ_iff hj hj hempty
          · rw [if_neg hresult]
            by_cases hj : j = result
            · have hmove : (KeyAt.entry j true).move result i = .gone := if_pos hj
              rw [hmove]
              cases map with
              | nil => exact iff_of_false nofun (by simp [hj])
              | cons next map =>
                  refine iff_of_true rfl ⟨hj.ge, ⟨fun h => by omega, fun h => by omega⟩, ?_⟩
                  rw [if_neg (List.cons_ne_nil next map)]
                  omega
            · by_cases hji : j = i
              · have hmove : (KeyAt.entry j true).move result i = .away :=
                  (if_neg hj).trans (if_pos hji)
                rw [hmove]
                refine iff_of_false (removeIf_ne_undefined hkey hkeys nofun nofun) fun h => ?_
                cases h.2.1.1 hji
              · have hmove : (KeyAt.entry j true).move result i = .entry j true :=
                  (if_neg hj).trans (if_neg hji)
                rw [hmove, ih hkeys (Nat.succ_le_succ hle)]
                exact overwritten_succ_iff hj hji hempty

/-- The loop ends exactly when no key below an entry is overwritten with it. -/
theorem removeIf_iff (answers : Nat → Bool) (hkey : key.Consistent)
    (hkeys : ∀ entry ∈ map, entry.1.Consistent) (hgone : keyAt ≠ .gone) :
    (∃ kept, removeIf key answers 0 0 keyAt map = .ok kept ∧ kept.Sublist map) ↔
      ∀ j, keyAt = .entry j true → ¬Overwritten key map j := by
  have hspec := removeIf_spec answers 0 0 keyAt hkey hkeys
  constructor
  · intro ⟨kept, hkept, _⟩ j hj hover
    obtain rfl := hj
    have hundefined := (removeIf_below_iff answers hkey hkeys le_rfl).mpr
      ⟨Nat.zero_le j, fun _ => hover.1, hover.2⟩
    cases hkept.symm.trans hundefined
  · intro h
    refine hspec.resolve_right fun hundefined => ?_
    by_cases hbelow : ∃ j, keyAt = .entry j true
    · obtain ⟨j, rfl⟩ := hbelow
      have hover := (removeIf_below_iff answers hkey hkeys le_rfl).mp hundefined
      exact h j rfl ⟨hover.2.1 (Nat.zero_le j), hover.2.2⟩
    · exact removeIf_ne_undefined hkey hkeys hgone (not_exists.mp hbelow) hundefined

end RemoveIf

end Haze.Cpp
