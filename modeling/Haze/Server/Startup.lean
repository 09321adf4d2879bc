import Haze.Fs.InstanceRegistry
import Mathlib

/-
  The search of `main` for a port: from `InstanceRegistryGetLastPort` upwards, for as long as
  `HazeServerStart` says that the port is in use or not allowed.

  The counter is an `int`, and `HazeServerNew` takes 16 bits of it. Behind port 65535 the search
  asks for port 0, which the system gives any port for, and then for the ports from 1 on
  (`start_zero`, `start_wraps`). It finds the least port that is available, or reports that there
  is none, exactly when there is one at or above the start (`portSearch_finds_iff`).
-/

namespace Haze

/-! ## The search -/

/-- `UV_EADDRINUSE`, `UV_EACCES` and the other errors of libuv. -/
inductive UvError where
  | eaddrinuse
  | eacces
  | other
  deriving DecidableEq

/-- What `HazeServerNew` and `HazeServerStart` come to for a port: no memory for the server, an
error, or a server that listens on some port. -/
inductive StartOutcome where
  | noServer
  | error (err : UvError)
  | started (port : UInt16)

/-- How `main` goes on: to `HazeServerRun`, with the port the server listens on; back with the
status 1; or past the greatest `int`, which is undefined. -/
inductive SearchEnd where
  | running (port : UInt16)
  | failed
  | overflow
  deriving DecidableEq

/-- The ports that were asked for, and the end. -/
structure PortSearch where
  asked : List UInt16
  ending : SearchEnd

def intMax : Nat := 2147483647

/-- The body of the loop: its end, or `none` where it goes on with the next port. -/
def StartOutcome.ending? : StartOutcome → Option SearchEnd
  | .noServer => some .failed
  | .error err => if err = .eaddrinuse ∨ err = .eacces then none else some .failed
  | .started bound => some (.running bound)

/-- The loop, with the number of increments that `int port` has left. The conversion to the
parameter of `HazeServerNew` is modulo 65536. -/
def mainLoop (start : UInt16 → StartOutcome) (port : Nat) : Nat → PortSearch
  | 0 => { asked := [.ofNat port], ending := (start (.ofNat port)).ending?.getD .overflow }
  | left + 1 =>
    match (start (.ofNat port)).ending? with
    | some ending => { asked := [.ofNat port], ending := ending }
    | none =>
      let rest := mainLoop start (port + 1) left
      { rest with asked := .ofNat port :: rest.asked }

section Loop

variable {start : UInt16 → StartOutcome} {port left : Nat}

theorem mainLoop_end {e : SearchEnd} (h : (start (.ofNat port)).ending? = some e) :
    mainLoop start port left = { asked := [.ofNat port], ending := e } := by
  cases left <;> simp [mainLoop, h]

theorem mainLoop_next (h : (start (.ofNat port)).ending? = none) :
    mainLoop start port (left + 1) =
      { asked := .ofNat port :: (mainLoop start (port + 1) left).asked
        ending := (mainLoop start (port + 1) left).ending } := by
  rw [mainLoop, h]

/-- The search over ports that it goes on from. -/
theorem mainLoop_add {k : Nat} (hnext : ∀ i < k, (start (.ofNat (port + i))).ending? = none) :
    mainLoop start port (k + left) =
      { asked := (List.range k).map (fun i => .ofNat (port + i)) ++
          (mainLoop start (port + k) left).asked
        ending := (mainLoop start (port + k) left).ending } := by
  induction k generalizing left with
  | zero =>
      rw [Nat.zero_add]
      rfl
  | succ k ih =>
      have hfirst := @ih (left + 1) fun i hi => hnext i (Nat.lt_succ_of_lt hi)
      rw [show k + 1 + left = k + (left + 1) by omega, hfirst,
        mainLoop_next (hnext k (Nat.lt_succ_self k)), List.range_succ, List.map_append,
        List.append_assoc]
      rfl

/-- The search up to the port that ends it. -/
theorem mainLoop_eq {k : Nat} {e : SearchEnd}
    (hnext : ∀ i < k, (start (.ofNat (port + i))).ending? = none) (hk : k ≤ left)
    (hend : (start (.ofNat (port + k))).ending? = some e) :
    mainLoop start port left =
      { asked := (List.range (k + 1)).map fun i => .ofNat (port + i), ending := e } := by
  obtain ⟨left, rfl⟩ := Nat.exists_eq_add_of_le hk
  rw [mainLoop_add hnext, mainLoop_end hend, List.range_succ, List.map_append]
  rfl

/-- The first port is asked for. -/
theorem mem_asked_mainLoop : .ofNat port ∈ (mainLoop start port left).asked := by
  cases hround : (start (.ofNat port)).ending? with
  | some e =>
      rw [mainLoop_end hround]
      exact List.mem_singleton_self _
  | none =>
      cases left with
      | zero => exact List.mem_singleton_self _
      | succ left =>
          rw [mainLoop_next hround]
          exact List.mem_cons_self

theorem started_of_ending? {outcome : StartOutcome} {bound : UInt16}
    (h : outcome.ending? = some (.running bound)) : outcome = .started bound := by
  cases outcome with
  | noServer => cases h
  | error err =>
      unfold StartOutcome.ending? at h
      dsimp only at h
      split_ifs at h
      cases h
  | started bound' =>
      cases h
      rfl

/-- A server that runs was started for some port. -/
theorem mainLoop_running {bound : UInt16} (h : (mainLoop start port left).ending = .running bound) :
    ∃ q, start q = .started bound := by
  induction left generalizing port with
  | zero =>
      unfold mainLoop at h
      cases hround : (start (.ofNat port)).ending? with
      | none =>
          rw [hround] at h
          cases h
      | some e =>
          rw [hround] at h
          rw [show e = .running bound from h] at hround
          exact ⟨_, started_of_ending? hround⟩
  | succ left ih =>
      cases hround : (start (.ofNat port)).ending? with
      | none =>
          rw [mainLoop_next hround] at h
          exact ih h
      | some e =>
          rw [mainLoop_end hround] at h
          rw [show e = .running bound from h] at hround
          exact ⟨_, started_of_ending? hround⟩

end Loop

/-! ## Unavailable ports -/

inductive Unavailable where
  | inUse
  | notAllowed
  deriving DecidableEq

/-- The ports that can not be listened on, and the one the system gives out for port 0, if it has
any left to give. -/
structure Ports where
  unavailable : UInt16 → Option Unavailable
  anyPort : Option UInt16
  anyPort_available : ∀ q ∈ anyPort, q ≠ 0 ∧ unavailable q = none

namespace Ports

def start (ports : Ports) (q : UInt16) : StartOutcome :=
  if q = 0 then
    match ports.anyPort with
    | some bound => .started bound
    | none => .error .eaddrinuse
  else
    match ports.unavailable q with
    | some .inUse => .error .eaddrinuse
    | some .notAllowed => .error .eacces
    | none => .started q

/-- A port of the range that can be listened on. -/
def Available (ports : Ports) (q : Nat) : Prop :=
  0 < q ∧ q ≤ 65535 ∧ ports.unavailable (.ofNat q) = none

/-- `main` with this start of the search. -/
def search (ports : Ports) (port : Nat) : PortSearch := mainLoop ports.start port (intMax - port)

variable {ports : Ports}

theorem ofNat_ne_zero {q : Nat} (hpos : 0 < q) (hle : q ≤ 65535) : UInt16.ofNat q ≠ 0 := by
  intro h
  have hnat := congrArg UInt16.toNat h
  rw [UInt16.toNat_ofNat_of_lt' (show q < 65536 by omega)] at hnat
  exact absurd hnat hpos.ne'

theorem start_available {q : Nat} (h : ports.Available q) :
    (ports.start (.ofNat q)).ending? = some (.running (.ofNat q)) := by
  obtain ⟨hpos, hle, hnone⟩ := h
  unfold start
  rw [if_neg (ofNat_ne_zero hpos hle), hnone]
  rfl

theorem start_not_available {q : Nat} (hpos : 0 < q) (hle : q ≤ 65535)
    (h : ¬ports.Available q) : (ports.start (.ofNat q)).ending? = none := by
  unfold start
  rw [if_neg (ofNat_ne_zero hpos hle)]
  cases hunavailable : ports.unavailable (.ofNat q) with
  | none => exact absurd ⟨hpos, hle, hunavailable⟩ h
  | some why => cases why <;> rfl

theorem start_zero {any : Option UInt16} (h : ports.anyPort = any) :
    ports.start 0 = any.elim (.error .eaddrinuse) .started := by
  unfold start
  rw [if_pos rfl, h]
  cases any <;> rfl

/-- Where a port is available, the search ends at the least of them. -/
theorem search_of_isLeast {port q : Nat} (hport : 1 ≤ port)
    (h : IsLeast {q | port ≤ q ∧ ports.Available q} q) :
    ports.search port =
      { asked := (List.range (q - port + 1)).map fun i => .ofNat (port + i)
        ending := .running (.ofNat q) } := by
  obtain ⟨⟨hle, havailable⟩, hleast⟩ := h
  have hq := havailable.2.1
  have heq : port + (q - port) = q := by omega
  apply mainLoop_eq
  · intro i hi
    apply start_not_available (by omega) (by omega)
    intro hi'
    have hge := hleast ⟨Nat.le_add_right port i, hi'⟩
    omega
  · unfold intMax
    omega
  · rw [heq]
    exact start_available havailable

/-- Behind the last port the search begins again. -/
theorem start_wraps (i : Nat) : ports.start (.ofNat (65536 + i)) = ports.start (.ofNat i) := by
  rw [UInt16.ofNat_add]
  simp

theorem mainLoop_again {q : Nat} (h : ports.Available q) (hany : ports.anyPort = none)
    (hleast : ∀ r < q, ¬ports.Available r) :
    (mainLoop ports.start 65536 (intMax - 65536)).ending = .running (.ofNat q) := by
  have hround : ∀ i < q, (ports.start (.ofNat (65536 + i))).ending? = none := by
    intro i hi
    rw [start_wraps]
    by_cases hpos : 0 < i
    · exact start_not_available hpos (hi.le.trans h.2.1) (hleast i hi)
    · obtain rfl := Nat.eq_zero_of_not_pos hpos
      exact congrArg StartOutcome.ending? (start_zero hany)
  rw [mainLoop_eq hround (h.2.1.trans (by decide)) (by rw [start_wraps]; exact start_available h)]

/-- Where none is available, the search comes to port 0 behind the last of them. -/
theorem search_of_none {port : Nat} (hport : 1 ≤ port) (hle : port ≤ 65535)
    (h : ∀ q, port ≤ q → ¬ports.Available q) :
    ∃ asked, ports.search port =
      { asked := asked ++ (mainLoop ports.start 65536 (intMax - 65536)).asked
        ending := (mainLoop ports.start 65536 (intMax - 65536)).ending } := by
  have hleft : intMax - port = (65536 - port) + (intMax - 65536) := by
    unfold intMax
    omega
  unfold search
  rw [hleft, mainLoop_add fun i hi => start_not_available (by omega) (by omega)
    (h (port + i) (Nat.le_add_right port i)), show port + (65536 - port) = 65536 by omega]
  exact ⟨_, rfl⟩

/-- The port that the search comes to first: the least one from the start on, or else the one that
the system gives, or else the least of all. -/
def ComesFirst (ports : Ports) (port q : Nat) : Prop :=
  ports.Available q ∧
    ((port ≤ q ∧ ∀ r, port ≤ r → r < q → ¬ports.Available r) ∨
      ((∀ r, port ≤ r → ¬ports.Available r) ∧
        (ports.anyPort = some (.ofNat q) ∨
          (ports.anyPort = none ∧ ∀ r < q, ¬ports.Available r))))

theorem ComesFirst.search {port q : Nat} (hport : 1 ≤ port) (hle : port ≤ 65535)
    (h : ports.ComesFirst port q) : (ports.search port).ending = .running (.ofNat q) := by
  obtain ⟨havailable, hfirst | ⟨hnone, hbehind⟩⟩ := h
  · have hleast : IsLeast {q | port ≤ q ∧ ports.Available q} q := by
      refine ⟨⟨hfirst.1, havailable⟩, fun r hr => ?_⟩
      by_contra hlt
      exact hfirst.2 r hr.1 (not_le.mp hlt) hr.2
    rw [search_of_isLeast hport hleast]
  · obtain ⟨asked, hsearch⟩ := search_of_none hport hle hnone
    rw [hsearch]
    dsimp only
    obtain hany | ⟨hany, hleast⟩ := hbehind
    · have hzero : (ports.start (.ofNat 65536)).ending? = some (.running (.ofNat q)) :=
        congrArg StartOutcome.ending? (start_zero hany)
      rw [mainLoop_end hzero]
    · exact mainLoop_again havailable hany hleast

theorem ofNat_toNat_available {q : UInt16} (hne : q ≠ 0) (h : ports.unavailable q = none) :
    ports.Available q.toNat := by
  refine ⟨?_, Nat.le_of_lt_succ q.toNat_lt, by rwa [UInt16.ofNat_toNat]⟩
  apply Nat.pos_of_ne_zero
  intro hzero
  exact hne (UInt16.toNat_inj.mp hzero)

/-- Some port comes first when some port is available. -/
theorem exists_comesFirst (port : Nat) {r : Nat} (h : ports.Available r) :
    ∃ q, ports.ComesFirst port q := by
  classical
  by_cases hfrom : ∃ q, port ≤ q ∧ ports.Available q
  · have hfound := Nat.find_spec hfrom
    refine ⟨Nat.find hfrom, hfound.2, .inl ⟨hfound.1, fun r hr hlt havailable => ?_⟩⟩
    exact Nat.find_min hfrom hlt ⟨hr, havailable⟩
  · push Not at hfrom
    cases hany : ports.anyPort with
    | some q =>
        obtain ⟨hne, hnone⟩ := ports.anyPort_available q hany
        refine ⟨q.toNat, ofNat_toNat_available hne hnone, .inr ⟨hfrom, .inl ?_⟩⟩
        rw [hany, UInt16.ofNat_toNat]
    | none =>
        have hsome : ∃ q, ports.Available q := ⟨r, h⟩
        exact ⟨Nat.find hsome, Nat.find_spec hsome,
          .inr ⟨hfrom, .inr ⟨hany, fun q hq => Nat.find_min hsome hq⟩⟩⟩

/-- A port that a server listens on was available. -/
theorem available_of_running {port : Nat} {bound : UInt16}
    (h : (ports.search port).ending = .running bound) : ports.Available bound.toNat := by
  obtain ⟨q, hstart⟩ := mainLoop_running h
  unfold start at hstart
  split_ifs at hstart with hzero
  · cases hany : ports.anyPort with
    | none =>
        rw [hany] at hstart
        cases hstart
    | some b =>
        rw [hany] at hstart
        cases hstart
        obtain ⟨hne, hnone⟩ := ports.anyPort_available bound hany
        exact ofNat_toNat_available hne hnone
  · cases hunavailable : ports.unavailable q with
    | none =>
        rw [hunavailable] at hstart
        cases hstart
        exact ofNat_toNat_available hzero hunavailable
    | some why =>
        rw [hunavailable] at hstart
        cases why <;> cases hstart

/-- The search ends on the port that comes first, if there is one. -/
theorem search_running_iff {port : Nat} (hport : 1 ≤ port) (hle : port ≤ 65535) {q : UInt16} :
    (ports.search port).ending = .running q ↔ ports.ComesFirst port q.toNat := by
  constructor
  · intro h
    obtain ⟨r, hr⟩ := exists_comesFirst port (available_of_running h)
    have hsearch := hr.search hport hle
    rw [h] at hsearch
    obtain rfl := SearchEnd.running.inj hsearch
    rwa [UInt16.toNat_ofNat_of_lt' (show r < 65536 by have hr' := hr.1.2.1; omega)]
  · intro h
    rw [h.search hport hle, UInt16.ofNat_toNat]

end Ports

/-! ## What the search finds -/

variable (ulongMax : Nat)

/-- The start of the search is a port that the order of the directory does not change, the search
asks for no port below it, and it ends at the least port that is available or, without one, with a
failure. -/
structure FindsPort (dir : Option (List CString)) (ports : Ports) : Prop where
  range : 1 ≤ instanceRegistryGetLastPort ulongMax dir ∧
    instanceRegistryGetLastPort ulongMax dir ≤ 65535
  order : ∀ names names', dir = some names → names'.Perm names →
    instanceRegistryGetLastPort ulongMax (some names') = instanceRegistryGetLastPort ulongMax dir
  asked : ∀ q ∈ (ports.search (instanceRegistryGetLastPort ulongMax dir)).asked,
    instanceRegistryGetLastPort ulongMax dir ≤ q.toNat
  ending : (∃ q, IsLeast {q | instanceRegistryGetLastPort ulongMax dir ≤ q ∧ ports.Available q} q ∧
      (ports.search (instanceRegistryGetLastPort ulongMax dir)).ending = .running (.ofNat q)) ∨
    ((∀ q, instanceRegistryGetLastPort ulongMax dir ≤ q → ¬ports.Available q) ∧
      (ports.search (instanceRegistryGetLastPort ulongMax dir)).ending = .failed)

/-- The search finds a port, or that there is none, exactly when there is one. -/
theorem portSearch_finds_iff (dir : Option (List CString)) (ports : Ports) :
    FindsPort ulongMax dir ports ↔
      ∃ q, instanceRegistryGetLastPort ulongMax dir ≤ q ∧ ports.Available q := by
  have hrange := getLastPort_range ulongMax dir
  constructor
  · intro h
    by_contra hnone
    push Not at hnone
    obtain ⟨asked, hsearch⟩ := Ports.search_of_none hrange.1 hrange.2 hnone
    have hzero :
        (0 : UInt16) ∈ (ports.search (instanceRegistryGetLastPort ulongMax dir)).asked := by
      rw [hsearch]
      exact List.mem_append_right _ (@mem_asked_mainLoop ports.start 65536 _)
    have hle := h.asked 0 hzero
    exact absurd (hrange.1.trans hle) (by decide)
  · intro h
    classical
    have hleast : IsLeast {q | instanceRegistryGetLastPort ulongMax dir ≤ q ∧ ports.Available q}
        (Nat.find h) := ⟨Nat.find_spec h, fun q hq => Nat.find_min' h hq⟩
    have hsearch := Ports.search_of_isLeast hrange.1 hleast
    refine ⟨hrange, ?_, ?_, .inl ⟨_, hleast, congrArg PortSearch.ending hsearch⟩⟩
    · intro names names' hdir hperm
      rw [hdir]
      exact getLastPort_eq_of_same_names ulongMax fun name => hperm.mem_iff
    · intro q hq
      rw [hsearch] at hq
      obtain ⟨i, hi, rfl⟩ := List.mem_map.mp hq
      have hlast := hleast.1.2.2.1
      have hi := List.mem_range.mp hi
      rw [UInt16.toNat_ofNat_of_lt' (show _ < 65536 by omega)]
      exact Nat.le_add_right _ i

/-- Port 65535 is in use, and any port is port 40000. -/
def lastPortInUse : Ports where
  unavailable q := if q = 65535 then some .inUse else none
  anyPort := some 40000
  anyPort_available q hq := by
    rw [← Option.some.inj hq]
    decide

/-- An instance was started on port 65535, where something still listens: the search asks for
port 0 and ends at port 40000. -/
theorem portSearch_asks_zero :
    lastPortInUse.search (instanceRegistryGetLastPort 18446744073709551615
        (some [.ofString "65535"])) = { asked := [65535, 0], ending := .running 40000 } ∧
      ¬FindsPort 18446744073709551615 (some [.ofString "65535"]) lastPortInUse := by
  have hlast : instanceRegistryGetLastPort 18446744073709551615 (some [.ofString "65535"]) =
      65535 := by decide +kernel
  have hsearch : lastPortInUse.search 65535 = { asked := [65535, 0], ending := .running 40000 } :=
    mainLoop_eq (k := 1) (by decide) (by decide) (by decide)
  rw [hlast]
  refine ⟨hsearch, fun h => ?_⟩
  have hasked := h.asked
  rw [hlast, hsearch] at hasked
  exact absurd (hasked 0 (by decide)) (by decide)

end Haze
