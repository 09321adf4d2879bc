import Mathlib.Data.List.AList

/-
  Finite maps that remember the order of insertion.

  An `OrderedMap` is an association list without repeated keys. Setting a key that is there
  replaces its value in place and setting another one appends (`entries_set_of_mem`,
  `entries_set_of_notMem`); erasing is that of association lists. `Represents` relates a map to
  a list of pairs whose keys and values stand for its own, and there is one rule for each
  way such a list is searched and changed at the first pair that matches a key.
-/

namespace Collections

variable {K V : Type} [DecidableEq K]

/-! ## Maps -/

/-- A finite map with its keys in order. -/
abbrev OrderedMap (K V : Type) := AList fun _ : K => V

namespace OrderedMap

/-- A new key goes to the end. -/
def push (m : OrderedMap K V) (k : K) (v : V) (hk : k ∉ m) : OrderedMap K V where
  entries := m.entries ++ [⟨k, v⟩]
  nodupKeys := by
    rw [List.NodupKeys, List.keys_append]
    exact List.Nodup.append m.keys_nodup (List.nodup_singleton k)
      (List.disjoint_singleton.mpr hk)

def set (m : OrderedMap K V) (k : K) (v : V) : OrderedMap K V :=
  if hk : k ∈ m then m.replace k v else m.push k v hk

theorem entries_set_of_mem {m : OrderedMap K V} {k : K} (hk : k ∈ m) (v : V) :
    (m.set k v).entries = m.entries.kreplace k v := by
  rw [set, dif_pos hk]
  rfl

theorem entries_set_of_notMem {m : OrderedMap K V} {k : K} (hk : k ∉ m) (v : V) :
    (m.set k v).entries = m.entries ++ [⟨k, v⟩] := by
  rw [set, dif_neg hk]
  rfl

theorem entries_foldl_set {entries : List (Σ _ : K, V)} {m : OrderedMap K V}
    (hnodup : (m.entries ++ entries).NodupKeys) :
    (entries.foldl (fun m entry => m.set entry.1 entry.2) m).entries = m.entries ++ entries := by
  induction entries generalizing m with
  | nil => simp
  | cons entry entries ih =>
      have hnew : entry.1 ∉ m := by
        intro hmem
        apply (List.nodupKeys_cons.mp (List.nodupKeys_middle.mp hnodup)).1
        rw [List.keys_append]
        exact List.mem_append_left _ hmem
      have hset := entries_set_of_notMem hnew entry.2
      rw [List.foldl_cons, ih (by rwa [hset, List.append_assoc]), hset, List.append_assoc]
      rfl

/-- A map is built again by setting its entries in order. -/
theorem foldl_set (m : OrderedMap K V) :
    m.entries.foldl (fun m entry => m.set entry.1 entry.2) (∅ : OrderedMap K V) = m :=
  AList.ext (entries_foldl_set (m := ∅) m.nodupKeys)

end OrderedMap

/-! ## Maps held as lists of pairs -/

section Represents

variable {A B : Type} {key : A → Option K} {holds : B → V → Prop} {same : A → A → Bool}
  {pairs : List (A × B)} {entries : List (Σ _ : K, V)} {m : OrderedMap K V} {a : A} {k : K}

/-- The pairs stand for the entries, one by one. -/
def Stand (key : A → Option K) (holds : B → V → Prop) :
    List (A × B) → List (Σ _ : K, V) → Prop :=
  List.Forall₂ fun pair entry => key pair.1 = some entry.1 ∧ holds pair.2 entry.2

/-- The pairs stand for the map, in order. -/
def Represents (key : A → Option K) (holds : B → V → Prop) (pairs : List (A × B))
    (m : OrderedMap K V) : Prop := Stand key holds pairs m.entries

/-- `same` compares the keys that two things stand for. -/
def Compares (key : A → Option K) (same : A → A → Bool) : Prop :=
  ∀ ⦃a b : A⦄ ⦃k l : K⦄, key a = some k → key b = some l → (same a b = true ↔ l = k)

omit [DecidableEq K] in
theorem Stand.keys (h : Stand key holds pairs entries) :
    pairs.map (fun pair => key pair.1) = entries.keys.map some := by
  induction h with
  | nil => rfl
  | cons hpair _ ih => rw [List.map_cons, ih, hpair.1, List.keys_cons, List.map_cons]

omit [DecidableEq K] in
theorem Represents.length (h : Represents key holds pairs m) :
    pairs.length = m.entries.length := List.Forall₂.length_eq h

omit [DecidableEq K] in
/-- No two pairs stand for one key. -/
theorem Represents.nodup (h : Represents key holds pairs m) :
    (pairs.map fun pair => key pair.1).Nodup := by
  rw [Stand.keys h]
  exact m.keys_nodup.map fun _ _ => Option.some.inj

section Search

variable (hsame : Compares key same) (hk : key a = some k)

include hsame hk

omit [DecidableEq K] in
/-- A pair matches when the key is in the map. -/
theorem Represents.any (h : Represents key holds pairs m) :
    pairs.any (fun pair => same pair.1 a) = true ↔ k ∈ m := by
  unfold Represents at h
  rw [AList.mem_keys, AList.keys]
  generalize m.entries = entries at h
  induction h with
  | nil => simp
  | @cons pair entry pairs entries hpair _ ih =>
      rw [List.any_cons, Bool.or_eq_true, ih, List.keys_cons, List.mem_cons, hsame hpair.1 hk]

/-- The first pair that matches holds the value of the map. -/
theorem Represents.find (h : Represents key holds pairs m) :
    Option.Rel holds ((pairs.find? fun pair => same pair.1 a).map Prod.snd) (m.lookup k) := by
  unfold Represents at h
  unfold AList.lookup
  generalize m.entries = entries at h
  induction h with
  | nil => exact .none
  | @cons pair entry pairs entries hpair _ ih =>
      by_cases heq : k = entry.1
      · subst heq
        have hmatch : same pair.1 a = true := (hsame hpair.1 hk).mpr rfl
        have hlookup : (entry :: entries).dlookup entry.1 = some entry.2 :=
          List.dlookup_cons_eq entries entry.1 entry.2
        simp only [List.find?_cons, hmatch, hlookup]
        exact .some hpair.2
      · have hno : ¬same pair.1 a = true := fun hmatch => heq ((hsame hpair.1 hk).mp hmatch)
        simp only [List.find?_cons, hno, List.dlookup_cons_ne _ _ heq]
        exact ih

theorem Stand.replace {b : B} {v : V} (hb : holds b v) (h : Stand key holds pairs entries) :
    Stand key holds
      (pairs.lookmap fun pair => if same pair.1 a then some (pair.1, b) else none)
      (entries.kreplace k v) := by
  unfold List.kreplace
  induction h with
  | nil => exact .nil
  | @cons pair entry pairs entries hpair htail ih =>
      rw [List.lookmap_cons, List.lookmap_cons]
      by_cases heq : k = entry.1
      · simp only [if_pos ((hsame hpair.1 hk).mpr heq), if_pos heq]
        exact .cons ⟨heq ▸ hpair.1, hb⟩ htail
      · have hno : ¬same pair.1 a = true := fun hmatch => heq ((hsame hpair.1 hk).mp hmatch)
        simp only [if_neg hno, if_neg heq]
        exact .cons hpair ih

/-- Replacing the value of the first pair that matches sets a key that is there. -/
theorem Represents.replace {b : B} {v : V} (hb : holds b v) (hmem : k ∈ m)
    (h : Represents key holds pairs m) :
    Represents key holds
      (pairs.lookmap fun pair => if same pair.1 a then some (pair.1, b) else none)
      (m.set k v) := by
  unfold Represents
  rw [OrderedMap.entries_set_of_mem hmem]
  exact Stand.replace hsame hk hb h

/-- Erasing the first pair that matches erases the key. -/
theorem Represents.erase (h : Represents key holds pairs m) :
    Represents key holds (pairs.eraseP fun pair => same pair.1 a) (m.erase k) := by
  unfold Represents at h ⊢
  show Stand key holds _ (m.entries.kerase k)
  generalize m.entries = entries at h
  induction h with
  | nil => exact .nil
  | @cons pair entry pairs entries hpair htail ih =>
      by_cases heq : k = entry.1
      · have hmatch : same pair.1 a = true := (hsame hpair.1 hk).mpr heq
        simp only [List.eraseP_cons, hmatch, cond_true, List.kerase_cons_eq heq]
        exact htail
      · have hno : ¬same pair.1 a = true := fun hmatch => heq ((hsame hpair.1 hk).mp hmatch)
        simp only [List.eraseP_cons, hno, cond_false, List.kerase_cons_ne heq]
        exact .cons hpair ih

end Search

/-- Appending a pair sets a key that is not there. -/
theorem Represents.push {b : B} {v : V} (hk : key a = some k) (hb : holds b v) (hmem : k ∉ m)
    (h : Represents key holds pairs m) :
    Represents key holds (pairs ++ [(a, b)]) (m.set k v) := by
  unfold Represents
  rw [OrderedMap.entries_set_of_notMem hmem]
  exact List.rel_append h (.cons ⟨hk, hb⟩ .nil)

end Represents

end Collections
