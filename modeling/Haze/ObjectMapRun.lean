import Haze.ObjectMapHeap
import Haze.Transition.Run

/-
  Runs of calls on map tables.

  `MapStep` is what the calls are for: a table is an insertion-ordered map from keys to what
  the values hold, and a copy is another map equal to it. `TableStep` is the calls as the
  source makes them, on tables whose pairs are on one heap. With keys of the kinds a table can
  tell apart and values without maps, no two tables share a pair, a key or a value
  (`TablesStand`), every run of tables is a run of maps with the same results, and a call
  leaves the other tables as they are (`tableRun_refines`).
-/

open Collections Transition

namespace Haze

/-! ## Keys and values -/

/-- A key of a kind that is told apart by its payload. -/
inductive Key where
  | bool (v : Bool)
  | int (v : Int64)
  | uint (v : UInt64)
  | str (s : CString)
  deriving DecidableEq

/-- The object of a key. -/
def Key.object : Key → Object
  | .bool v => .bool v
  | .int v => .int v
  | .uint v => .uint v
  | .str s => .str (some s)

namespace Object

/-- The key an object stands for. -/
def key : Object → Option Key
  | .bool v => some (.bool v)
  | .int v => some (.int v)
  | .uint v => some (.uint v)
  | .str (some s) => some (.str s)
  | _ => none

/-- The object holds the content, and no map. -/
def Holds (o content : Object) : Prop := o.content = content ∧ o.Everywhere NoMap

@[simp] theorem key_objectCopy (o : Object) : (objectCopy o).key = o.key := by
  cases o with
  | bin b => cases b <;> rfl
  | array xs => cases xs <;> rfl
  | _ => rfl

theorem noMap_objectCopy (o : Object) : (objectCopy o).Everywhere NoMap := by
  induction o using elementInduction with
  | step o ih =>
      refine .intro ?_ ?_
      · cases o with
        | bin b => cases b <;> trivial
        | array xs => cases xs <;> trivial
        | _ => trivial
      · rw [elements_objectCopy, List.forall_mem_map]
        exact ih

theorem Holds.copy {o content : Object} (h : o.Holds content) : (objectCopy o).Holds content :=
  ⟨((objectCopy_same o).mpr h.2).trans h.1, noMap_objectCopy o⟩

end Object

theorem Object.eq_of_key {o : Object} {k : Key} (h : o.key = some k) : o = k.object := by
  cases o with
  | bool v => exact Option.some.inj h ▸ rfl
  | int v => exact Option.some.inj h ▸ rfl
  | uint v => exact Option.some.inj h ▸ rfl
  | str s =>
      cases s with
      | none => cases h
      | some s => exact Option.some.inj h ▸ rfl
  | _ => cases h

theorem objectEquals_compares : Compares Object.key objectEquals := by
  intro a b k l ha hb
  rw [Object.eq_of_key ha, Object.eq_of_key hb]
  cases k <;> cases l <;> simp [Key.object, objectEquals, eq_comm]

/-! ## Tables and maps -/

/-- The table stands for the map, pair by pair. -/
def Refines (table : ObjectMapTable) (m : OrderedMap Key Object) : Prop :=
  Represents Object.key Object.Holds table.pairs m

section Operations

variable {table : ObjectMapTable} {m : OrderedMap Key Object} {key value content : Object} {k : Key}

theorem objectMapTableCreate_refines : Refines objectMapTableCreate ∅ := .nil

theorem has_iff_mem (h : Refines table m) (hk : key.key = some k) :
    table.has key = true ↔ k ∈ m :=
  h.any objectEquals_compares hk

theorem objectMapTableSet_refines (h : Refines table m) (hk : key.key = some k)
    (hvalue : value.Holds content) :
    Refines (objectMapTableSet table key value).2 (m.set k content) := by
  have hmem := has_iff_mem h hk
  unfold objectMapTableSet
  by_cases hhas : table.has key
  · rw [if_pos hhas]
    exact h.replace objectEquals_compares hk hvalue.copy (hmem.mp hhas)
  · rw [if_neg hhas]
    have hkey : (objectCopy key).key = some k := by rw [Object.key_objectCopy, hk]
    exact h.push hkey hvalue.copy (mt hmem.mpr hhas)

theorem objectMapTableGet_refines (h : Refines table m) (hk : key.key = some k) :
    Option.Rel Object.Holds (objectMapTableGet table key) (m.lookup k) :=
  h.find objectEquals_compares hk

theorem objectMapTableRemove_refines (h : Refines table m) (hk : key.key = some k) :
    (objectMapTableRemove table key).1 = decide (k ∈ m) ∧
      Refines (objectMapTableRemove table key).2 (m.erase k) := by
  refine ⟨?_, ?_⟩
  · rw [objectMapTableRemove_fst, Bool.eq_iff_iff, has_iff_mem h hk, decide_eq_true_iff]
  · unfold Refines
    rw [objectMapTableRemove_pairs]
    exact h.erase objectEquals_compares hk

theorem objectMapTableLen_refines (h : Refines table m) :
    objectMapTableLen table = m.entries.length := h.length

theorem foldl_set_refines {pairs : List (Object × Object)} {entries : List (Σ _ : Key, Object)}
    (hpairs : Stand Object.key Object.Holds pairs entries) {dst : ObjectMapTable}
    {md : OrderedMap Key Object} (hdst : Refines dst md) :
    Refines (pairs.foldl (fun dst pair => (objectMapTableSet dst pair.1 pair.2).2) dst)
      (entries.foldl (fun m entry => m.set entry.1 entry.2) md) := by
  induction hpairs generalizing dst md with
  | nil => exact hdst
  | cons hpair _ ih => exact ih (objectMapTableSet_refines hdst hpair.1 hpair.2)

/-- A copy stands for the map of its source. -/
theorem objectMapTableCopy_refines (h : Refines table m) :
    Refines (objectMapTableCopy table) m := by
  have hcopy := foldl_set_refines h objectMapTableCreate_refines
  rwa [OrderedMap.foldl_set] at hcopy

end Operations

/-! ## Calls -/

/-- A key object of the kinds that are told apart. -/
structure KeyObject where
  object : Object
  isKey : object.key.isSome

/-- A value object without maps in it. -/
structure ValueObject where
  object : Object
  noMap : object.Everywhere Object.NoMap

def KeyObject.key (key : KeyObject) : Key := key.object.key.get key.isKey

/-- The calls on tables, which are known by the order of their creation. Any other number
is a `NULL` table. -/
inductive TableCall where
  | create
  | set (table : Nat) (key : KeyObject) (value : ValueObject)
  | remove (table : Nat) (key : KeyObject)
  | get (table : Nat) (key : KeyObject)
  | len (table : Nat)
  | copy (table : Nat)

inductive TableResult where
  | table (t : Option Nat)
  | flag (ok : Bool)
  | value (v : Option Object)
  | length (n : Nat)

/-- The table a call may change. -/
def TableCall.target : TableCall → Option Nat
  | .set t _ _ => some t
  | .remove t _ => some t
  | _ => none

/-- The tables, and the heap with their pairs. -/
structure TableStore where
  heap : MapHeap
  tables : List MapTable

/-- What a call does to the tables; `none` where it is undefined. The objects it is given are
read before anything is freed. -/
def TableCall.onTables (s : TableStore) : TableCall → Option (TableResult × TableStore)
  | .create =>
    some (.table (some s.tables.length), { s with tables := s.tables ++ [MapTable.create] })
  | .set t key value =>
    match s.tables[t]? with
    | none => some (.flag false, s)
    | some table => do
      let (ok, heap, table) ← MapTable.set s.heap table key.object value.object
      return (.flag ok, { heap := heap, tables := s.tables.set t table })
  | .remove t key =>
    match s.tables[t]? with
    | none => some (.flag false, s)
    | some table => do
      let (ok, heap, table) ← MapTable.remove s.heap table key.object
      return (.flag ok, { heap := heap, tables := s.tables.set t table })
  | .get t key =>
    match s.tables[t]? with
    | none => some (.value none, s)
    | some table => do
      match ← MapTable.get s.heap table key.object with
      | none => return (.value none, s)
      | some value =>
        let o ← MapTable.readObject s.heap value
        return (.value (some o), s)
  | .len t => some (.length (s.tables[t]?.elim 0 Slots.len), s)
  | .copy t =>
    match s.tables[t]? with
    | none => some (.table none, s)
    | some src => do
      let (heap, dst) ← MapTable.copy s.heap src
      match dst with
      | none => return (.table none, { s with heap := heap })
      | some dst =>
        return (.table (some s.tables.length), { heap := heap, tables := s.tables ++ [dst] })

/-- What a call means for the maps. -/
def TableCall.onMaps (maps : List (OrderedMap Key Object)) :
    TableCall → TableResult × List (OrderedMap Key Object)
  | .create => (.table (some maps.length), maps ++ [∅])
  | .set t key value =>
    match maps[t]? with
    | none => (.flag false, maps)
    | some m => (.flag true, maps.set t (m.set key.key value.object.content))
  | .remove t key =>
    match maps[t]? with
    | none => (.flag false, maps)
    | some m => (.flag (key.key ∈ m), maps.set t (m.erase key.key))
  | .get t key => (.value (maps[t]?.bind (·.lookup key.key)), maps)
  | .len t => (.length (maps[t]?.elim 0 (·.entries.length)), maps)
  | .copy t =>
    match maps[t]? with
    | none => (.table none, maps)
    | some m => (.table (some maps.length), maps ++ [m])

/-- The same call, with the same result; an object that is returned holds the content. -/
inductive Agrees : TableCall × TableResult → TableCall × TableResult → Prop where
  | table (call : TableCall) (t : Option Nat) : Agrees (call, .table t) (call, .table t)
  | flag (call : TableCall) (ok : Bool) : Agrees (call, .flag ok) (call, .flag ok)
  | value (call : TableCall) {got want : Option Object} :
      Option.Rel Object.Holds got want → Agrees (call, .value got) (call, .value want)
  | length (call : TableCall) (n : Nat) : Agrees (call, .length n) (call, .length n)

/-- A call on the tables, with its result. -/
def TableStep (s : TableStore) (a : TableCall × TableResult) (s' : TableStore) : Prop :=
  a.1.onTables s = some (a.2, s')

def MapStep (maps : List (OrderedMap Key Object)) (a : TableCall × TableResult)
    (maps' : List (OrderedMap Key Object)) : Prop :=
  a.1.onMaps maps = (a.2, maps')

theorem KeyObject.key_eq (key : KeyObject) : key.object.key = some key.key :=
  (Option.some_get key.isKey).symm

/-! ## The invariant -/

open MapTable

/-- A pair as it is read through its slot. -/
def MapTable.readPair (heap : MapHeap) (slot : Option Address) : Option (Object × Object) := do
  let (_, k, v) ← follow heap slot
  let key ← readObject heap k
  let value ← readObject heap v
  return (key, value)

/-- The pairs of a table, as they are read through its slots. -/
def TableStore.pairs (s : TableStore) (t : Nat) : List (Option (Object × Object)) :=
  (s.tables[t]?.elim [] Slots.used).map (readPair s.heap)

/-- The addresses of the pairs of a table, and the map it stands for. -/
abbrev TableView := List PairAt × OrderedMap Key Object

def StandsFor (heap : MapHeap) (table : MapTable) (view : TableView) : Prop :=
  ∃ t, TableAt heap table view.1 t ∧ Refines t view.2

/-- The tables stand for the maps, and what each points to is its own. -/
structure TablesStand (s : TableStore) (views : List TableView) : Prop where
  tables : List.Forall₂ (StandsFor s.heap) s.tables views
  separate : (cells (views.flatMap Prod.fst)).Nodup

theorem cells_flatMap (views : List TableView) :
    cells (views.flatMap Prod.fst) = views.flatMap fun view => cells view.1 :=
  List.flatMap_assoc

section Invariant

variable {s : TableStore} {heap heap' : MapHeap} {tables : List MapTable} {table table' : MapTable}
  {views : List TableView} {layout mid mid' : List PairAt} {m m' : OrderedMap Key Object}
  {t : Nat}

/-- What the tables point to is there. -/
theorem ats_of_standsFor (h : List.Forall₂ (StandsFor heap) tables views) :
    ∃ pairs, List.Forall₂ (At heap) (views.flatMap Prod.fst) pairs := by
  induction h with
  | nil => exact ⟨[], .nil⟩
  | cons hhead _ ih =>
      obtain ⟨t, hat, -⟩ := hhead
      obtain ⟨pairs, hats⟩ := ih
      exact ⟨t.pairs ++ pairs, List.rel_append hat.pairs hats⟩

/-- Tables beside what moves stand for the same maps. -/
theorem standsFor_keeps (h : List.Forall₂ (StandsFor heap) tables views)
    (hmoves : Moves heap mid heap' mid')
    (hdisj : (cells mid).Disjoint (cells (views.flatMap Prod.fst))) :
    List.Forall₂ (StandsFor heap') tables views := by
  induction h with
  | nil => exact .nil
  | cons hhead _ ih =>
      rw [List.flatMap_cons, cells_append, List.disjoint_append_right] at hdisj
      obtain ⟨t, hat, hrefines⟩ := hhead
      exact .cons ⟨t, hat.keeps hmoves hdisj.1, hrefines⟩ (ih hdisj.2)

theorem readPairs_table {pure : ObjectMapTable} (h : TableAt heap table layout pure) :
    table.used.map (readPair heap) = pure.pairs.map some := by
  rw [h.slots, List.map_map]
  have hats := h.pairs
  generalize pure.pairs = pairs at hats
  clear h
  induction hats with
  | nil => rfl
  | cons hat _ ih =>
      rw [List.map_cons, List.map_cons, ih]
      simp [readPair, hat.follow, hat.readKey, hat.readValue]

/-- A table and what it points to is replaced. -/
theorem TablesStand.replace (h : TablesStand s views) (ht : s.tables[t]? = some table)
    (hview : views[t]? = some (layout, m)) (hmoves : Moves s.heap layout heap' mid')
    (hstands : StandsFor heap' table' (mid', m')) :
    TablesStand { heap := heap', tables := s.tables.set t table' } (views.set t (mid', m')) := by
  obtain ⟨front, back, vfront, view, vback, htables, rfl, hlen, hlen', hfront, -, hback⟩ :=
    forall₂_split h.tables ht
  obtain rfl : view = (layout, m) := by simpa [← hlen'] using hview
  have hsep : (cells (vfront.flatMap Prod.fst ++ layout ++ vback.flatMap Prod.fst)).Nodup := by
    simpa using h.separate
  obtain ⟨-, hrest, hdfront, hdback⟩ := cells_nodup_iff.mp hsep
  obtain ⟨pfront, hafront⟩ := ats_of_standsFor hfront
  obtain ⟨pback, haback⟩ := ats_of_standsFor hback
  obtain ⟨pure, hat, hrefines⟩ := hstands
  refine ⟨?_, ?_⟩
  · rw [htables, ← hlen, set_middle, hlen, ← hlen', set_middle]
    exact List.rel_append (standsFor_keeps hfront hmoves hdfront)
      (.cons ⟨pure, hat, hrefines⟩ (standsFor_keeps hback hmoves hdback))
  · have hsep' : (cells (vfront.flatMap Prod.fst ++ mid' ++ vback.flatMap Prod.fst)).Nodup :=
      cells_nodup_iff.mpr ⟨hat.once, hrest, hmoves.disjoint hafront hdfront,
        hmoves.disjoint haback hdback⟩
    rw [← hlen', set_middle]
    simpa using hsep'

/-- A table at new addresses is a table more. -/
theorem TablesStand.push (h : TablesStand s views) (hmoves : Moves s.heap [] heap' mid')
    (hstands : StandsFor heap' table' (mid', m')) :
    TablesStand { heap := heap', tables := s.tables ++ [table'] } (views ++ [(mid', m')]) := by
  obtain ⟨pairs, hats⟩ := ats_of_standsFor h.tables
  have hnil : ∀ rest : List PairAt, (cells []).Disjoint (cells rest) :=
    fun _ => List.disjoint_nil_left _
  obtain ⟨pure, hat, hrefines⟩ := hstands
  refine ⟨List.rel_append (standsFor_keeps h.tables hmoves (hnil _))
    (.cons ⟨pure, hat, hrefines⟩ .nil), ?_⟩
  have hsep : (cells (views.flatMap Prod.fst ++ mid' ++ [])).Nodup :=
    cells_nodup_iff.mpr ⟨hat.once, by simpa using h.separate, hmoves.disjoint hats (hnil _),
      List.disjoint_nil_right _⟩
  simpa using hsep

/-- Two tables share no address. -/
theorem TablesStand.unshared (h : TablesStand s views) {t' : Nat} (hne : t ≠ t')
    {view view' : TableView} (ht : views[t]? = some view) (ht' : views[t']? = some view') :
    (cells view.1).Disjoint (cells view'.1) := by
  have hsep := h.separate
  rw [cells_flatMap] at hsep
  obtain ⟨-, hpairs⟩ := List.nodup_flatMap.mp hsep
  obtain ⟨hlt, rfl⟩ := List.getElem?_eq_some_iff.mp ht
  obtain ⟨hlt', rfl⟩ := List.getElem?_eq_some_iff.mp ht'
  rcases Nat.lt_or_gt_of_ne hne with hbefore | hbehind
  · exact List.pairwise_iff_getElem.mp hpairs t t' hlt hlt' hbefore
  · exact (List.pairwise_iff_getElem.mp hpairs t' t hlt' hlt hbehind).symm

/-- A table that is beside what moves reads the same pairs. -/
theorem TablesStand.pairs_keep (h : TablesStand s views) {s' : TableStore} {t' : Nat}
    (htable : s'.tables[t']? = s.tables[t']?) (hmoves : Moves s.heap mid s'.heap mid')
    (hdisj : ∀ view, views[t']? = some view → (cells mid).Disjoint (cells view.1)) :
    s'.pairs t' = s.pairs t' := by
  unfold TableStore.pairs
  rw [htable]
  obtain ⟨hnone, -⟩ | ⟨table, view, htable, hview, pure, hat, -⟩ := forall₂_at h.tables t'
  · rw [hnone]
    rfl
  · rw [htable, Option.elim_some, readPairs_table hat,
      readPairs_table (hat.keeps hmoves (hdisj view hview))]

/-- The table that is made anew is the only one that reads other pairs. -/
theorem TablesStand.pairs_set (h : TablesStand s views) {view : TableView}
    (hview : views[t]? = some view) (hmoves : Moves s.heap view.1 heap' mid') {t' : Nat}
    (hne : t ≠ t') :
    TableStore.pairs { heap := heap', tables := s.tables.set t table' } t' = s.pairs t' :=
  h.pairs_keep (List.getElem?_set_ne hne) hmoves fun _ hview' => h.unshared hne hview hview'

end Invariant

/-! ## Runs -/

section Simulation

variable {s s' : TableStore} {views : List TableView}

/-- A call is defined, has on the tables the result it has on the maps, leaves tables that stand
for the maps again, and changes only the table it is made on. -/
def TableStore.Carries (s : TableStore) (views : List TableView) (call : TableCall) : Prop :=
  ∃ result s' views', call.onTables s = some (result, s') ∧
    Agrees (call, result) (call, (call.onMaps (views.map Prod.snd)).1) ∧
    TablesStand s' views' ∧ views'.map Prod.snd = (call.onMaps (views.map Prod.snd)).2 ∧
    ∀ t < s.tables.length, call.target ≠ some t → s'.pairs t = s.pairs t

theorem map_at (views : List TableView) (t : Nat) :
    (views.map Prod.snd)[t]? = views[t]?.map Prod.snd := List.getElem?_map

theorem TablesStand.create_carries (h : TablesStand s views) : s.Carries views .create := by
  have hlen : s.tables.length = views.length := h.tables.length_eq
  refine ⟨_, _, views ++ [([], ∅)], rfl, ?_, ?_, ?_, fun t ht _ => ?_⟩
  · simp only [TableCall.onMaps, hlen, List.length_map]
    exact .table _ _
  · refine ⟨List.rel_append h.tables (.cons ⟨_, create_table s.heap, ?_⟩ .nil), ?_⟩
    · exact objectMapTableCreate_refines
    · simpa using h.separate
  · simp [TableCall.onMaps]
  · unfold TableStore.pairs
    rw [List.getElem?_append_left ht]

theorem TablesStand.set_carries (h : TablesStand s views) (t : Nat) (key : KeyObject)
    (value : ValueObject) : s.Carries views (.set t key value) := by
  unfold TableStore.Carries
  simp only [TableCall.onTables, TableCall.onMaps, TableCall.target, map_at]
  obtain ⟨htable, hview⟩ | ⟨table, ⟨layout, m⟩, htable, hview, pure, hat, hrefines⟩ :=
    forall₂_at h.tables t
  · rw [htable, hview]
    exact ⟨_, s, views, rfl, .flag _ _, h, rfl, fun _ _ _ => rfl⟩
  rw [htable, hview]
  obtain ⟨heap', table', layout', hset, hat', hmoves⟩ :=
    set_table hat key.object value.object
  refine ⟨.flag true, _, views.set t (layout', m.set key.key value.object.content), ?_,
    .flag _ _, h.replace htable hview hmoves ⟨_, hat', ?_⟩, List.map_set, ?_⟩
  · exact Option.bind_eq_some_iff.mpr ⟨_, hset, rfl⟩
  · exact objectMapTableSet_refines hrefines key.key_eq ⟨rfl, value.noMap⟩
  · exact fun t' _ hne => h.pairs_set hview hmoves fun heq => hne (congrArg some heq)

theorem TablesStand.remove_carries (h : TablesStand s views) (t : Nat) (key : KeyObject) :
    s.Carries views (.remove t key) := by
  unfold TableStore.Carries
  simp only [TableCall.onTables, TableCall.onMaps, TableCall.target, map_at]
  obtain ⟨htable, hview⟩ | ⟨table, ⟨layout, m⟩, htable, hview, pure, hat, hrefines⟩ :=
    forall₂_at h.tables t
  · rw [htable, hview]
    exact ⟨_, s, views, rfl, .flag _ _, h, rfl, fun _ _ _ => rfl⟩
  rw [htable, hview]
  obtain ⟨heap', table', layout', hremove, hat', hmoves⟩ := remove_table hat key.object
  obtain ⟨hfound, hrefines'⟩ := objectMapTableRemove_refines hrefines key.key_eq
  rw [hfound] at hremove
  refine ⟨.flag (key.key ∈ m), _, views.set t (layout', m.erase key.key), ?_,
    .flag _ _, h.replace htable hview hmoves ⟨_, hat', hrefines'⟩, List.map_set, ?_⟩
  · exact Option.bind_eq_some_iff.mpr ⟨_, hremove, rfl⟩
  · exact fun t' _ hne => h.pairs_set hview hmoves fun heq => hne (congrArg some heq)

theorem TablesStand.get_carries (h : TablesStand s views) (t : Nat) (key : KeyObject) :
    s.Carries views (.get t key) := by
  unfold TableStore.Carries
  simp only [TableCall.onTables, TableCall.onMaps, map_at]
  obtain ⟨htable, hview⟩ | ⟨table, ⟨layout, m⟩, htable, hview, pure, hat, hrefines⟩ :=
    forall₂_at h.tables t
  · rw [htable, hview]
    exact ⟨_, s, views, rfl, .value _ .none, h, rfl, fun _ _ _ => rfl⟩
  rw [htable, hview]
  have hrel := objectMapTableGet_refines hrefines key.key_eq
  obtain ⟨found, hget, hfound⟩ := get_table hat key.object
  cases found with
  | none =>
      have hnone : objectMapTableGet pure key.object = none := hfound
      rw [hnone] at hrel
      refine ⟨.value none, s, views, ?_, .value _ hrel, h, rfl, fun _ _ _ => rfl⟩
      exact Option.bind_eq_some_iff.mpr ⟨_, hget, rfl⟩
  | some v =>
      obtain ⟨o, hread, hsome⟩ := hfound
      rw [hsome] at hrel
      refine ⟨.value (some o), s, views, ?_, .value _ hrel, h, rfl, fun _ _ _ => rfl⟩
      refine Option.bind_eq_some_iff.mpr ⟨_, hget, ?_⟩
      exact Option.bind_eq_some_iff.mpr ⟨_, hread, rfl⟩

theorem TablesStand.len_carries (h : TablesStand s views) (t : Nat) : s.Carries views (.len t) := by
  refine ⟨_, s, views, rfl, ?_, h, rfl, fun _ _ _ => rfl⟩
  simp only [TableCall.onMaps, map_at]
  obtain ⟨htable, hview⟩ | ⟨table, ⟨layout, m⟩, htable, hview, pure, hat, hrefines⟩ :=
    forall₂_at h.tables t
  · rw [htable, hview]
    exact .length _ _
  · have hlen : table.len = m.entries.length :=
      hat.length.trans (hat.pairs.length_eq.trans (objectMapTableLen_refines hrefines))
    rw [htable, hview, Option.elim_some, Option.map_some, Option.elim_some, hlen]
    exact .length _ _

theorem TablesStand.copy_carries (h : TablesStand s views) (t : Nat) :
    s.Carries views (.copy t) := by
  have hlen : s.tables.length = views.length := h.tables.length_eq
  unfold TableStore.Carries
  simp only [TableCall.onTables, TableCall.onMaps, map_at, hlen, List.length_map]
  obtain ⟨htable, hview⟩ | ⟨table, ⟨layout, m⟩, htable, hview, pure, hat, hrefines⟩ :=
    forall₂_at h.tables t
  · rw [htable, hview]
    exact ⟨_, s, views, rfl, .table _ _, h, rfl, fun _ _ _ => rfl⟩
  rw [htable, hview]
  obtain ⟨heap', dst, layout', hcopy, hat', hmoves⟩ := copy_table hat
  refine ⟨.table (some views.length), _, views ++ [(layout', m)], ?_, .table _ _,
    h.push hmoves ⟨_, hat', objectMapTableCopy_refines hrefines⟩, by simp, ?_⟩
  · exact Option.bind_eq_some_iff.mpr ⟨_, hcopy, rfl⟩
  · intro t' ht' _
    exact h.pairs_keep (List.getElem?_append_left (hlen ▸ ht')) hmoves fun view _ =>
      List.disjoint_nil_left _

theorem TablesStand.onTables_carries (h : TablesStand s views) (call : TableCall) :
    s.Carries views call := by
  cases call with
  | create => exact h.create_carries
  | set t key value => exact h.set_carries t key value
  | remove t key => exact h.remove_carries t key
  | get t key => exact h.get_carries t key
  | len t => exact h.len_carries t
  | copy t => exact h.copy_carries t

theorem tableStep_refines {a : TableCall × TableResult} (h : TablesStand s views)
    (hstep : TableStep s a s') :
    ∃ b views', MapStep (views.map Prod.snd) b (views'.map Prod.snd) ∧ Agrees a b ∧
      TablesStand s' views' := by
  obtain ⟨call, result⟩ := a
  obtain ⟨result', s'', views', hcall, hagrees, hnext, hmaps, -⟩ := h.onTables_carries call
  obtain ⟨rfl, rfl⟩ := Prod.mk.inj (Option.some.inj (hcall.symm.trans hstep))
  exact ⟨(call, (call.onMaps (views.map Prod.snd)).1), views', Prod.ext rfl hmaps.symm, hagrees,
    hnext⟩

/-- The table stands for the map: its pairs, read through its slots, hold the entries in order,
no two of them have one key, and they fit its slots. -/
def Shows (heap : MapHeap) (table : MapTable) (m : OrderedMap Key Object) : Prop :=
  ∃ pairs, table.used.map (readPair heap) = pairs.map some ∧
    Represents Object.key Object.Holds pairs m ∧ (pairs.map fun pair => pair.1.key).Nodup ∧
    table.len = pairs.length ∧ table.len ≤ table.capacity

theorem StandsFor.shows {heap : MapHeap} {table : MapTable} {view : TableView}
    (h : StandsFor heap table view) : Shows heap table view.2 := by
  obtain ⟨pure, hat, hrefines⟩ := h
  exact ⟨pure.pairs, readPairs_table hat, hrefines, Represents.nodup hrefines,
    hat.length.trans hat.pairs.length_eq, table.fits⟩

/-- A run of calls on tables, from none, has the results of the run of the same calls on maps,
and its tables show the maps. Then every call is defined, and it changes no other table than
the one it is made on. -/
theorem tableRun_refines {log : List (TableCall × TableResult)}
    (hrun : Run TableStep { heap := { cells := [] }, tables := [] } log s) :
    ∃ log' maps, Run MapStep [] log' maps ∧ List.Forall₂ Agrees log log' ∧
      List.Forall₂ (Shows s.heap) s.tables maps ∧
      ∀ call : TableCall, ∃ result s', TableStep s (call, result) s' ∧
        Agrees (call, result) (call, (call.onMaps maps).1) ∧
        ∀ t < s.tables.length, call.target ≠ some t → s'.pairs t = s.pairs t := by
  obtain ⟨log', maps, hrun', hlog, views, hstand, rfl⟩ :=
    hrun.simulated (R := fun s maps => ∃ views, TablesStand s views ∧ views.map Prod.snd = maps)
      (A := Agrees) (t := []) ⟨[], ⟨.nil, List.nodup_nil⟩, rfl⟩ (by
        rintro m a m' _ ⟨views, hstand, rfl⟩ hstep
        obtain ⟨b, views', hmaps, hagrees, hstand'⟩ := tableStep_refines hstand hstep
        exact ⟨b, _, hmaps, hagrees, views', hstand', rfl⟩)
  refine ⟨log', _, hrun', hlog, ?_, fun call => ?_⟩
  · rw [List.forall₂_map_right_iff]
    exact hstand.tables.imp fun _ _ h => h.shows
  · obtain ⟨result, s', views', hcall, hagrees, -, -, hframe⟩ := hstand.onTables_carries call
    exact ⟨result, s', hcall, hagrees, hframe⟩

end Simulation

/-- A table with the pair `1: 2`, a copy of it, and another value in the first. -/
theorem tableRun_refines_copy :
    ∃ s, Run TableStep { heap := { cells := [] }, tables := [] }
        [(.create, .table (some 0)),
          (.set 0 ⟨.int 1, rfl⟩ ⟨.int 2, .leaf trivial rfl⟩, .flag true),
          (.copy 0, .table (some 1)),
          (.set 0 ⟨.int 1, rfl⟩ ⟨.int 3, .leaf trivial rfl⟩, .flag true)] s ∧
      ∃ log' maps, Run MapStep [] log' maps ∧ List.Forall₂ Agrees
        [(.create, .table (some 0)),
          (.set 0 ⟨.int 1, rfl⟩ ⟨.int 2, .leaf trivial rfl⟩, .flag true),
          (.copy 0, .table (some 1)),
          (.set 0 ⟨.int 1, rfl⟩ ⟨.int 3, .leaf trivial rfl⟩, .flag true)] log' ∧
      List.Forall₂ (Shows s.heap) s.tables maps ∧
      ∀ call : TableCall, ∃ result s', TableStep s (call, result) s' ∧
        Agrees (call, result) (call, (call.onMaps maps).1) ∧
        ∀ t < s.tables.length, call.target ≠ some t → s'.pairs t = s.pairs t := by
  obtain ⟨s, hrun⟩ : ∃ s, Run TableStep { heap := { cells := [] }, tables := [] }
      [(.create, .table (some 0)),
        (.set 0 ⟨.int 1, rfl⟩ ⟨.int 2, .leaf trivial rfl⟩, .flag true),
        (.copy 0, .table (some 1)),
        (.set 0 ⟨.int 1, rfl⟩ ⟨.int 3, .leaf trivial rfl⟩, .flag true)] s :=
    ⟨_, .cons rfl (.cons rfl (.cons rfl (.cons rfl .nil)))⟩
  exact ⟨s, hrun, tableRun_refines hrun⟩

end Haze
