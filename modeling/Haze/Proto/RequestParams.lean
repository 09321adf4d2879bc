import Haze.ObjectArrayRun
import Haze.Proto.RequestFrame

/-
  The parameter list of a request: `RequestParamAppend`, `RequestParamGet` and
  `RequestParamCount` over the array the parameters are kept in.

  `Request` lists its parameters; here they are the slots of an `ObjectArray`, and
  `RequestParamAppend` has its loop over a gap and its test of a slot that is `NULL`.
  The array does what `requestParamAppend` does to the list (`RequestParams.append_refines`).
  In every run of calls each parameter is at its index with nils between them
  (`requestParams_places`). The count is 32 bits wide, so it is the length modulo 2^32.
-/

open Collections Transition

namespace Haze

open ObjectArray

/-! ## The array of parameters -/

/-- The heap, and `parameters` of a request. -/
structure RequestParams where
  heap : Heap Object
  parameters : ObjectArray

namespace RequestParams

/-- The parameters of a new request, on a heap with other objects. -/
def create (heap : Heap Object) : RequestParams := { heap := heap, parameters := .create }

def get (r : RequestParams) (index : UInt32) : Option Address :=
  if index.toNat < r.parameters.len then r.parameters.slots[index.toNat]?.join else none

def count (r : RequestParams) : UInt32 := .ofNat r.parameters.len

/-- `ObjectArrayAppend` to the parameters. -/
def push (r : RequestParams) (obj : Option Object) : Bool × RequestParams :=
  let (ok, heap, parameters) := ObjectArray.append r.heap r.parameters obj
  (ok, { heap := heap, parameters := parameters })

/-- One pass of the loop over a gap: the nil that is made for it is copied, and stays behind. -/
def pushNil (r : RequestParams) : RequestParams :=
  (({ r with heap := (r.heap.alloc .nil).2 } : RequestParams).push (some .nil)).2

/-- The loop over a gap. -/
def fillGap (r : RequestParams) (ind : Nat) : RequestParams :=
  if r.parameters.len < ind then fillGap r.pushNil ind else r
termination_by ind - r.parameters.len
decreasing_by
  show ind - (r.parameters.len + 1) < ind - r.parameters.len
  omega

/-- `RequestParamAppend`; it is undefined for a pointer to an object that was freed. -/
def append (r : RequestParams) (param : Option Address) (ind : UInt32) :
    Option (Bool × RequestParams) :=
  match param with
  | none => some (false, r)
  | some a =>
    if ind.toNat = r.parameters.len then (deref r.heap (some a)).map r.push
    else if ind.toNat < r.parameters.len then
      match r.parameters.slots[ind.toNat]?.join with
      | some _ => some (false, r)
      | none =>
        some (true, { r with parameters :=
          { r.parameters with
            slots := r.parameters.slots.set ind.toNat (some a)
            fits := by
              rw [List.length_set]
              exact r.parameters.fits
            hasRoom := by
              rw [List.length_set]
              exact r.parameters.hasRoom } })
    else
      let r := r.fillGap ind.toNat
      (deref r.heap (some a)).map r.push

/-! ## What a call does -/

/-- The parameters hold the contents, in order. -/
def Lists (r : RequestParams) (ps : List Object) : Prop := Stores r.heap r.parameters.used ps

variable {r r' : RequestParams} {ps : List Object} {obj : Object} {param : Address} {ind : UInt32}

theorem push_lists (h : r.Lists ps) (hmaps : obj.Everywhere Object.NoMap) :
    (r.push (some obj)).1 = true ∧ (r.push (some obj)).2.Lists (ps ++ [obj.content]) ∧
      Extends r.heap (r.push (some obj)).2.heap :=
  ⟨rfl, append_stores h ⟨rfl, hmaps⟩, extends_alloc r.heap (objectCopy obj)⟩

theorem pushNil_lists (h : r.Lists ps) :
    r.pushNil.Lists (ps ++ [.nil]) ∧ Extends r.heap r.pushNil.heap := by
  have hnil := extends_alloc r.heap .nil
  have hlists : ({ r with heap := (r.heap.alloc .nil).2 } : RequestParams).Lists ps := hnil.stores h
  obtain ⟨-, hpush, hext⟩ := push_lists hlists (.leaf (o := .nil) trivial rfl)
  exact ⟨hpush, fun a o hread => hext a o (hnil a o hread)⟩

/-- The gap is filled with nils, and other objects stay as they are. -/
theorem fillGap_lists (h : r.Lists ps) (ind : Nat) :
    (r.fillGap ind).Lists (ps ++ List.replicate (ind - ps.length) .nil) ∧
      Extends r.heap (r.fillGap ind).heap := by
  have hlen : ps.length = r.parameters.len := Stores.length_eq h
  induction hn : ind - ps.length generalizing r ps with
  | zero =>
      rw [fillGap, if_neg (by omega), List.replicate_zero, List.append_nil]
      exact ⟨h, fun _ _ hread => hread⟩
  | succ n ih =>
      obtain ⟨hnil, hext⟩ := pushNil_lists h
      have hlen' : (ps ++ [Object.nil]).length = r.pushNil.parameters.len := Stores.length_eq hnil
      obtain ⟨hlists, hext'⟩ := ih hnil hlen' (by
        rw [List.length_append, List.length_singleton]
        omega)
      rw [fillGap, if_pos (by omega), List.replicate_succ, List.append_cons]
      exact ⟨hlists, fun a o hread => hext' a o (hext a o hread)⟩

/-- Behind the end the parameter is placed at its index. -/
theorem append_past (ind : UInt32) (h : r.Lists ps) (hread : r.heap.read param = some obj)
    (hmaps : obj.Everywhere Object.NoMap) (hle : ps.length ≤ ind.toNat) :
    ∃ r', r.append (some param) ind = some (true, r') ∧
      r'.Lists (ps ++ List.replicate (ind.toNat - ps.length) .nil ++ [obj.content]) ∧
      Extends r.heap r'.heap := by
  have hlen : ps.length = r.parameters.len := Stores.length_eq h
  unfold append
  by_cases heq : ind.toNat = r.parameters.len
  · obtain ⟨hok, hpush, hext⟩ := push_lists h hmaps
    refine ⟨_, ?_, ?_, hext⟩
    · simp only
      rw [if_pos heq, deref_of_read hread]
      exact congrArg some (Prod.ext hok rfl)
    · rw [heq, hlen, Nat.sub_self, List.replicate_zero, List.append_nil]
      exact hpush
  · obtain ⟨hfill, hext⟩ := fillGap_lists h ind.toNat
    obtain ⟨hok, hpush, hext'⟩ := push_lists hfill hmaps
    refine ⟨_, ?_, hpush, fun a o ha => hext' a o (hext a o ha)⟩
    simp only
    rw [if_neg heq, if_neg (by omega), deref_of_read (hext _ _ hread)]
    exact congrArg some (Prod.ext hok rfl)

/-- Below the end the slot is in use, and the call fails. -/
theorem append_used (h : r.Lists ps) (param : Address) (hlt : ind.toNat < ps.length) :
    r.append (some param) ind = some (false, r) := by
  have hlen : ps.length = r.parameters.len := Stores.length_eq h
  obtain ⟨a, -, -, hslot, -⟩ := Stores.points h (hlen ▸ hlt)
  unfold append
  simp only
  rw [if_neg (by omega), if_pos (by omega), hslot]
  rfl

theorem requestParamAppend_used {rq : Request} (obj : Object)
    (hlt : ind.toNat < rq.parameters.length) : requestParamAppend rq obj ind = (false, rq) := by
  unfold requestParamAppend
  simp only
  rw [if_neg (by omega), if_pos hlt]

theorem contents_append_past {rq : Request} (hmaps : obj.Everywhere Object.NoMap)
    (hle : rq.parameters.length ≤ ind.toNat) :
    (requestParamAppend rq obj ind).2.parameters.map Object.content =
      rq.parameters.map Object.content ++
        List.replicate (ind.toNat - (rq.parameters.map Object.content).length) .nil ++
        [obj.content] := by
  have hcopy : (objectCopy obj).content = obj.content := (Object.objectCopy_same obj).mpr hmaps
  rw [requestParamAppend_past obj hle]
  simp [List.map_replicate, hcopy, Object.content]

/-- The call does to the array what `requestParamAppend` does to the list. -/
theorem append_refines {rq : Request} (ind : UInt32)
    (h : r.Lists (rq.parameters.map Object.content))
    (hread : r.heap.read param = some obj) (hmaps : obj.Everywhere Object.NoMap) :
    ∃ r', r.append (some param) ind = some ((requestParamAppend rq obj ind).1, r') ∧
      r'.Lists ((requestParamAppend rq obj ind).2.parameters.map Object.content) := by
  by_cases hle : rq.parameters.length ≤ ind.toNat
  · obtain ⟨r', happend, hlists, -⟩ :=
      append_past ind h hread hmaps (by rwa [List.length_map])
    rw [contents_append_past hmaps hle, requestParamAppend_past obj hle]
    exact ⟨r', happend, hlists⟩
  · have hlt := Nat.lt_of_not_le hle
    rw [requestParamAppend_used obj hlt]
    exact ⟨r, append_used h param (by rwa [List.length_map]), h⟩

/-- A parameter that is in the list is found at its index. -/
theorem get_lists (h : r.Lists ps) {content : Object} (hi : ps[ind.toNat]? = some content) :
    ∃ a o, r.get ind = some a ∧ r.heap.read a = some o ∧ o.Holds content := by
  have hlen : ps.length = r.parameters.len := Stores.length_eq h
  obtain ⟨hlt, -⟩ := List.getElem?_eq_some_iff.mp hi
  obtain ⟨a, o, content', hslot, -, hcontent, hread, hholds⟩ := Stores.points h (hlen ▸ hlt)
  obtain rfl := Option.some.inj (hi.symm.trans hcontent)
  refine ⟨a, o, ?_, hread, hholds⟩
  unfold get
  rw [if_pos (hlen ▸ hlt), hslot]
  rfl

theorem count_lists (h : r.Lists ps) : r.count.toNat = ps.length % 2 ^ 32 := by
  unfold count
  rw [UInt32.toNat_ofNat', ← Stores.length_eq h]

/-! ## Runs of calls -/

/-- A call with a pointer to an object without maps, and the index. -/
structure ParamCall where
  param : Address
  obj : ValueObject
  ind : UInt32

/-- A call, with its result. -/
def ParamStep (r : RequestParams) (a : ParamCall × Bool) (r' : RequestParams) : Prop :=
  r.heap.read a.1.param = some a.1.obj.object ∧
    r.append (some a.1.param) a.1.ind = some (a.2, r')

/-- Each call succeeded, each index that was given holds its parameter, every index that was
skipped a nil, and the list ends with the last parameter. -/
structure Placed (log : List (ParamCall × Bool)) (ps : List Object) : Prop where
  succeeds : ∀ a ∈ log, a.2 = true
  given : ∀ a ∈ log, ps[a.1.ind.toNat]? = some a.1.obj.object.content
  skipped : ∀ j < ps.length, (∀ a ∈ log, a.1.ind.toNat ≠ j) → ps[j]? = some .nil
  ends : ps.length = log.getLast?.elim 0 fun a => a.1.ind.toNat + 1

theorem placed_nil : Placed [] [] where
  succeeds := List.forall_mem_nil _
  given := List.forall_mem_nil _
  skipped := fun j hj => absurd hj (Nat.not_lt_zero j)
  ends := rfl

theorem length_filled {n : Nat} (hle : ps.length ≤ n) :
    (ps ++ List.replicate (n - ps.length) Object.nil).length = n := by
  rw [List.length_append, List.length_replicate]
  omega

theorem getElem?_filled {n : Nat} (hle : ps.length ≤ n) (content : Object) :
    (ps ++ List.replicate (n - ps.length) Object.nil ++ [content])[n]? = some content := by
  rw [List.getElem?_append_right (length_filled hle).le, length_filled hle, Nat.sub_self]
  rfl

/-- One more parameter, behind the list. -/
theorem Placed.concat {log : List (ParamCall × Bool)} (h : Placed log ps) (call : ParamCall)
    (hle : ps.length ≤ call.ind.toNat) :
    Placed (log ++ [(call, true)])
      (ps ++ List.replicate (call.ind.toNat - ps.length) .nil ++ [call.obj.object.content]) := by
  have hfilled := length_filled hle
  refine ⟨?_, ?_, ?_, ?_⟩
  · rw [List.forall_mem_append, List.forall_mem_singleton]
    exact ⟨h.succeeds, rfl⟩
  · rw [List.forall_mem_append, List.forall_mem_singleton]
    refine ⟨fun a ha => ?_, getElem?_filled hle _⟩
    have hgiven := h.given a ha
    obtain ⟨hlt, -⟩ := List.getElem?_eq_some_iff.mp hgiven
    rw [List.append_assoc, List.getElem?_append_left hlt, hgiven]
  · intro j hj hnot
    rw [List.forall_mem_append, List.forall_mem_singleton] at hnot
    have hj : j < call.ind.toNat := by
      rw [List.length_append, hfilled, List.length_singleton] at hj
      have hne : call.ind.toNat ≠ j := hnot.2
      omega
    rw [List.getElem?_append_left (hfilled.symm ▸ hj)]
    by_cases hin : j < ps.length
    · rw [List.getElem?_append_left hin]
      exact h.skipped j hin hnot.1
    · rw [List.getElem?_append_right (Nat.not_lt.mp hin), List.getElem?_replicate,
        if_pos (by omega)]
  · rw [List.length_append, hfilled, List.getLast?_concat]
    rfl

theorem Placed.length_le {log : List (ParamCall × Bool)} (h : Placed log ps) {ind : UInt32}
    (hbelow : ∀ a ∈ log, a.1.ind < ind) : ps.length ≤ ind.toNat := by
  rw [h.ends]
  cases hlast : log.getLast? with
  | none => exact Nat.zero_le _
  | some a => exact UInt32.lt_iff_toNat_lt.mp (hbelow a (List.mem_of_getLast? hlast))

/-- A run leaves the parameters of some request, which are placed where the indices increase. -/
theorem paramRun_lists {heap : Heap Object} {log : List (ParamCall × Bool)}
    (hrun : Run ParamStep (create heap) log r) :
    ∃ rq : Request, r.Lists (rq.parameters.map Object.content) ∧
      ((log.map fun a => a.1.ind).Pairwise (· < ·) →
        Placed log (rq.parameters.map Object.content)) := by
  refine hrun.invariant_trace
    (P := fun log r => ∃ rq : Request, r.Lists (rq.parameters.map Object.content) ∧
      ((log.map fun a => a.1.ind).Pairwise (· < ·) →
        Placed log (rq.parameters.map Object.content)))
    ⟨requestNew, .nil, fun _ => placed_nil⟩ fun log r a r' hinv hstep => ?_
  obtain ⟨rq, hlists, hplaced⟩ := hinv
  obtain ⟨call, ok⟩ := a
  obtain ⟨hread, happend⟩ := hstep
  obtain ⟨r'', hcall, hlists'⟩ := append_refines call.ind hlists hread call.obj.noMap
  obtain ⟨hok, rfl⟩ := Prod.mk.inj (Option.some.inj (hcall.symm.trans happend))
  refine ⟨_, hlists', fun hpairs => ?_⟩
  rw [List.map_append, List.pairwise_append] at hpairs
  obtain ⟨hfront, -, hbelow⟩ := hpairs
  -- an index above those before it is behind the end
  have hle := (hplaced hfront).length_le fun a ha =>
    hbelow _ (List.mem_map_of_mem ha) _ (List.mem_singleton_self _)
  have hle' : rq.parameters.length ≤ call.ind.toNat := by rwa [List.length_map] at hle
  rw [requestParamAppend_past _ hle'] at hok
  obtain rfl : true = ok := hok
  rw [contents_append_past call.obj.noMap hle']
  exact (hplaced hfront).concat call hle

end RequestParams

open RequestParams

/-- In a run of calls the parameters are a list `ps`. Any further call with an index behind the
end succeeds and leaves `ps`, nils up to the index and the parameter, which is then found at
its index, with a count of the length modulo 2^32; with any other index it fails and changes
nothing. Where the indices of the run increase, each is that of its parameter and the others
are those of nils. -/
theorem requestParams_places {heap : Heap Object} {log : List (ParamCall × Bool)}
    {r : RequestParams} (hrun : Run ParamStep (create heap) log r) :
    ∃ ps, r.Lists ps ∧
      (∀ call : ParamCall, r.heap.read call.param = some call.obj.object →
        ∃ ok r', r.append (some call.param) call.ind = some (ok, r') ∧
          (ps.length ≤ call.ind.toNat → ok = true ∧
            r'.Lists (ps ++ List.replicate (call.ind.toNat - ps.length) .nil ++
              [call.obj.object.content]) ∧
            (∃ a o, r'.get call.ind = some a ∧ r'.heap.read a = some o ∧
              o.Same call.obj.object) ∧
            r'.count.toNat = (call.ind.toNat + 1) % 2 ^ 32) ∧
          (call.ind.toNat < ps.length → ok = false ∧ r' = r)) ∧
      ((log.map fun a => a.1.ind).Pairwise (· < ·) → Placed log ps) := by
  obtain ⟨rq, hlists, hplaced⟩ := paramRun_lists hrun
  generalize rq.parameters.map Object.content = ps at hlists hplaced
  refine ⟨ps, hlists, fun call hread => ?_, hplaced⟩
  by_cases hle : ps.length ≤ call.ind.toNat
  · obtain ⟨r', happend, hlists', -⟩ := append_past call.ind hlists hread call.obj.noMap hle
    refine ⟨true, r', happend, fun _ => ⟨rfl, hlists', ?_, ?_⟩, fun hlt => absurd hlt (by omega)⟩
    · obtain ⟨a, o, hget, ha, hholds⟩ := get_lists hlists' (getElem?_filled hle _)
      exact ⟨a, o, hget, ha, hholds.1⟩
    · rw [count_lists hlists', List.length_append, length_filled hle, List.length_singleton]
  · have hlt := Nat.lt_of_not_le hle
    exact ⟨false, r, append_used hlists call.param hlt, fun h => absurd h hle, fun _ => ⟨rfl, rfl⟩⟩

/-- Two parameters with a gap between them. -/
theorem requestParams_places_gap :
    ∃ r, Run ParamStep (create { cells := [some (.uint 7)] })
        [(⟨0, ⟨.uint 7, .leaf trivial rfl⟩, 0⟩, true), (⟨0, ⟨.uint 7, .leaf trivial rfl⟩, 2⟩, true)]
        r ∧
      ∃ ps, r.Lists ps ∧
        (∀ call : ParamCall, r.heap.read call.param = some call.obj.object →
          ∃ ok r', r.append (some call.param) call.ind = some (ok, r') ∧
            (ps.length ≤ call.ind.toNat → ok = true ∧
              r'.Lists (ps ++ List.replicate (call.ind.toNat - ps.length) .nil ++
                [call.obj.object.content]) ∧
              (∃ a o, r'.get call.ind = some a ∧ r'.heap.read a = some o ∧
                o.Same call.obj.object) ∧
              r'.count.toNat = (call.ind.toNat + 1) % 2 ^ 32) ∧
            (call.ind.toNat < ps.length → ok = false ∧ r' = r)) ∧
        (([0, 2] : List UInt32).Pairwise (· < ·) → Placed
          [(⟨0, ⟨.uint 7, .leaf trivial rfl⟩, 0⟩, true),
            (⟨0, ⟨.uint 7, .leaf trivial rfl⟩, 2⟩, true)] ps) := by
  obtain ⟨r, hrun⟩ : ∃ r, Run ParamStep (create { cells := [some (.uint 7)] })
      [(⟨0, ⟨.uint 7, .leaf trivial rfl⟩, 0⟩, true), (⟨0, ⟨.uint 7, .leaf trivial rfl⟩, 2⟩, true)]
      r := by
    have hstart : (create { cells := [some (.uint 7)] }).Lists [] := .nil
    have hread : (create { cells := [some (.uint 7)] }).heap.read 0 = some (.uint 7) := rfl
    obtain ⟨r, hfirst, hone, hext⟩ := append_past 0 hstart hread (.leaf trivial rfl)
      (Nat.zero_le _)
    obtain ⟨r', hsecond, -, -⟩ := append_past 2 hone (hext 0 _ hread) (.leaf trivial rfl)
      (by decide)
    exact ⟨r', .cons ⟨hread, hfirst⟩ (.cons ⟨hext 0 _ hread, hsecond⟩ .nil)⟩
  exact ⟨r, hrun, requestParams_places hrun⟩

/-- At the last index the count is 0. -/
theorem requestParams_places_wraps :
    ¬∀ (heap : Heap Object) (log : List (ParamCall × Bool)) (r r' : RequestParams)
      (call : ParamCall), Run ParamStep (create heap) log r → ParamStep r (call, true) r' →
        r'.count.toNat = call.ind.toNat + 1 := by
  intro hall
  have hstart : (create { cells := [some .nil] }).Lists [] := .nil
  have hread : (create { cells := [some .nil] }).heap.read 0 = some .nil := rfl
  obtain ⟨r', happend, hlists, -⟩ := append_past 0xffffffff hstart hread
    (.leaf (o := .nil) trivial rfl) (Nat.zero_le _)
  have hcount := hall _ [] _ r' ⟨0, ⟨.nil, .leaf trivial rfl⟩, 0xffffffff⟩ .nil ⟨hread, happend⟩
  rw [count_lists hlists, List.length_append, length_filled (Nat.zero_le _)] at hcount
  exact absurd hcount (by decide)

end Haze
