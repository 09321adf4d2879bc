import Haze.Server.Startup
import Haze.Transition.Run

/-
  Instances that start and stop on one machine, and what the registry says of them.

  `ContextNew` registers an instance under port 7192, whatever is in the directory, and only
  then does `main` search for a port to listen on. The file stays behind when the instance
  ends. So the registry names the port of every running instance exactly as long as each start
  finds port 7192 (`instances_named_iff`), and no start does while another instance listens there.
-/

open Transition

namespace Haze

/-! ## Instances -/

/-- `ULONG_MAX`, which is not below 32 bits. -/
structure ULongMax where
  max : Nat
  atLeast : 4294967295 ≤ max

/-- The port `ContextNew` gives to `InstanceRegistryNew`. -/
def contextPort : UInt16 := 7192

/-- A process in `HazeServerRun`: its entry, and the port it listens on. -/
structure Instance where
  reg : InstanceReg
  listening : UInt16

/-- The files of the directory, and the running instances. -/
structure Machine where
  files : List CString
  running : List Instance

/-- What the system does: a process starts, with some order of the directory and some ports it can
have, or one ends. -/
inductive MachineAction where
  | start (listing : List CString) (ports : Ports)
  | exit (i : Nat)

/-- Where `main` ends up that starts with the directory and the ports. -/
def startup (u : ULongMax) (listing : List CString) (ports : Ports) : SearchEnd :=
  (ports.search (instanceRegistryGetLastPort u.max (some listing))).ending

/-- The directory has the file of the new instance by the time it is listed, and nobody can listen
on a port that an instance listens on. A process that does not get to `HazeServerRun` leaves its
file, and so does one that ends. -/
inductive MachineStep (u : ULongMax) (m : Machine) : MachineAction → Machine → Prop where
  | run {listing : List CString} {ports : Ports} {bound : UInt16} :
      listing.Perm (instanceRegistryNew m.files contextPort).2 →
      (∀ i ∈ m.running, ports.unavailable i.listening ≠ none) →
      startup u listing ports = .running bound →
      MachineStep u m (.start listing ports)
        { files := (instanceRegistryNew m.files contextPort).2
          running := m.running ++
            [{ reg := (instanceRegistryNew m.files contextPort).1, listening := bound }] }
  | fail {listing : List CString} {ports : Ports} :
      listing.Perm (instanceRegistryNew m.files contextPort).2 →
      (∀ i ∈ m.running, ports.unavailable i.listening ≠ none) →
      (∀ bound, startup u listing ports ≠ .running bound) →
      MachineStep u m (.start listing ports)
        { files := (instanceRegistryNew m.files contextPort).2, running := m.running }
  | exit (i : Nat) : MachineStep u m (.exit i) { m with running := m.running.eraseIdx i }

/-- Every running instance has a file that is named by the port it listens on and holds it, and no
two have the same file. -/
structure NamesPorts (m : Machine) : Prop where
  port : ∀ i ∈ m.running, i.reg.port = i.listening ∧ i.reg.path = portStr i.listening
  present : ∀ i ∈ m.running, i.reg.path ∈ m.files
  distinct : (m.running.map fun i => i.reg.path).Nodup

/-- Port 7192 is available, and the search starts there, because no file stands for a greater port.
A search that starts above comes back to it only where nothing is available from its start on, and
then the system gives out port 7192, or it gives out none and nothing is available below. -/
def FindsContextPort (u : ULongMax) (files : List CString) (ports : Ports) : Prop :=
  ports.Available 7192 ∧
    ((∀ name ∈ files, portOf u.max name ≤ 7192) ∨
      ((∀ q, (∀ name ∈ files, portOf u.max name ≤ q) → ¬ports.Available q) ∧
        (ports.anyPort = some 7192 ∨
          (ports.anyPort = none ∧ ∀ q < 7192, ¬ports.Available q))))

/-- A start that can get to `HazeServerRun` finds port 7192. -/
def MachineAction.Keeps (u : ULongMax) (m : Machine) : MachineAction → Prop
  | .start _ ports => (∃ q, ports.Available q) → FindsContextPort u m.files ports
  | .exit _ => True

/-! ## A start -/

section Start

variable {u : ULongMax} {m : Machine} {listing : List CString} {ports : Ports}

theorem mem_instanceRegistryNew {files : List CString} {port : UInt16} {name : CString} :
    name ∈ (instanceRegistryNew files port).2 ↔ name ∈ files ∨ name = portStr port := by
  unfold instanceRegistryNew
  dsimp only
  split_ifs with hmem
  · rw [or_iff_left_of_imp]
    rintro rfl
    exact hmem
  · rw [List.mem_append, List.mem_singleton]

/-- The start of the search is the greatest port of the files, and not below 7192. -/
theorem getLastPort_start_le_iff (h : listing.Perm (instanceRegistryNew m.files contextPort).2)
    {b : Nat} : instanceRegistryGetLastPort u.max (some listing) ≤ b ↔
      7192 ≤ b ∧ ∀ name ∈ m.files, portOf u.max name ≤ b := by
  have hmax := u.atLeast
  have hport : portOf u.max (portStr contextPort) = 7192 := portOf_portStr (by omega) contextPort
  have hmem : ∀ name, name ∈ listing ↔ name ∈ m.files ∨ name = portStr contextPort := by
    intro name
    rw [h.mem_iff, mem_instanceRegistryNew]
  rw [getLastPort_le_iff u.max ⟨_, (hmem _).mpr (.inr rfl), by rw [hport]; decide⟩]
  constructor
  · intro hall
    refine ⟨?_, fun name hname => hall name ((hmem name).mpr (.inl hname))⟩
    rw [← hport]
    exact hall _ ((hmem _).mpr (.inr rfl))
  · intro ⟨hle, hall⟩ name hname
    obtain hname | rfl := (hmem name).mp hname
    · exact hall name hname
    · rwa [hport]

/-- Port 7192 comes first for a search that starts where the files say. -/
theorem comesFirst_contextPort_iff (h : listing.Perm (instanceRegistryNew m.files contextPort).2) :
    ports.ComesFirst (instanceRegistryGetLastPort u.max (some listing)) 7192 ↔
      FindsContextPort u m.files ports := by
  have hle := fun b => getLastPort_start_le_iff (u := u) h (b := b)
  generalize instanceRegistryGetLastPort u.max (some listing) = port at hle
  have hport : 7192 ≤ port := ((hle port).mp le_rfl).1
  unfold Ports.ComesFirst FindsContextPort
  refine and_congr_right fun havailable => or_congr ?_ (and_congr_left fun _ => ?_)
  · rw [hle]
    constructor
    · exact fun hfirst => hfirst.1.2
    · exact fun hall => ⟨⟨le_rfl, hall⟩, fun r hr hlt => by omega⟩
  · constructor
    · intro hnone q hall
      by_cases hq : 7192 ≤ q
      · exact hnone q ((hle q).mpr ⟨hq, hall⟩)
      · -- the search would start at port 7192, which is available
        have hstart : port ≤ 7192 :=
          (hle 7192).mpr ⟨le_rfl, fun name hname => (hall name hname).trans (by omega)⟩
        exact absurd havailable (hnone 7192 hstart)
    · exact fun hnone r hr => hnone r ((hle r).mp hr).2

/-- A start that finds a port finds the one it is registered under just when it keeps the registry
right. -/
theorem startup_contextPort_iff (h : listing.Perm (instanceRegistryNew m.files contextPort).2)
    {bound : UInt16} (hend : startup u listing ports = .running bound) :
    bound = contextPort ↔ (MachineAction.start listing ports).Keeps u m := by
  have hrange := getLastPort_range u.max (some listing)
  have havailable := Ports.available_of_running hend
  have hfirst := @Ports.search_running_iff ports _ hrange.1 hrange.2 contextPort
  rw [show contextPort.toNat = 7192 from rfl, comesFirst_contextPort_iff h] at hfirst
  have hkeeps : (MachineAction.start listing ports).Keeps u m ↔ FindsContextPort u m.files ports :=
    forall_prop_of_true ⟨_, havailable⟩
  rw [hkeeps, ← hfirst]
  unfold startup at hend
  rw [hend]
  constructor
  · intro heq
    rw [heq]
  · exact SearchEnd.running.inj

end Start

/-! ## Runs -/

section Runs

variable {u : ULongMax} {m m' : Machine} {a : MachineAction}

/-- One more instance on port 7192, where nothing listens. -/
theorem NamesPorts.start (h : NamesPorts m) (hfree : ∀ i ∈ m.running, i.listening ≠ contextPort) :
    NamesPorts { files := (instanceRegistryNew m.files contextPort).2
                 running := m.running ++ [{ reg := (instanceRegistryNew m.files contextPort).1
                                            listening := contextPort }] } := by
  refine ⟨?_, ?_, ?_⟩
  · rw [List.forall_mem_append, List.forall_mem_singleton]
    exact ⟨h.port, rfl, rfl⟩
  · rw [List.forall_mem_append, List.forall_mem_singleton]
    exact ⟨fun i hi => mem_instanceRegistryNew.mpr (.inl (h.present i hi)),
      mem_instanceRegistryNew.mpr (.inr rfl)⟩
  · rw [List.map_append, List.map_singleton]
    refine List.nodup_append'.mpr ⟨h.distinct, List.nodup_singleton _, ?_⟩
    refine List.disjoint_singleton.mpr fun hmem => ?_
    obtain ⟨i, hi, hpath⟩ := List.mem_map.mp hmem
    rw [(h.port i hi).2] at hpath
    exact hfree i hi (portStr_injective hpath)

/-- A step from a right registry leads to a right one just when it keeps it right. -/
theorem machineStep_namesPorts_iff (h : NamesPorts m) (hstep : MachineStep u m a m') :
    NamesPorts m' ↔ a.Keeps u m := by
  cases hstep with
  | @run listing ports bound hlisting hbusy hend =>
      rw [← startup_contextPort_iff hlisting hend]
      constructor
      · intro h'
        have hnew := (h'.port _ (List.mem_append_right _ (List.mem_singleton_self _))).1
        exact hnew.symm
      · intro hbound
        have havailable := (Ports.available_of_running hend).2.2
        rw [UInt16.ofNat_toNat] at havailable
        rw [hbound] at havailable ⊢
        exact h.start fun i hi heq => hbusy i hi (heq ▸ havailable)
  | @fail listing ports hlisting hbusy hend =>
      refine iff_of_true ⟨h.port, fun i hi => ?_, h.distinct⟩ fun hsome => ?_
      · exact mem_instanceRegistryNew.mpr (.inl (h.present i hi))
      · obtain ⟨r, hr⟩ := hsome
        have hrange := getLastPort_range u.max (some listing)
        obtain ⟨q, hq⟩ :=
          Ports.exists_comesFirst (instanceRegistryGetLastPort u.max (some listing)) hr
        exact absurd (hq.search hrange.1 hrange.2) (hend _)
  | exit i =>
      refine iff_of_true ⟨?_, ?_, ?_⟩ trivial
      · exact fun j hj => h.port j (List.mem_of_mem_eraseIdx hj)
      · exact fun j hj => h.present j (List.mem_of_mem_eraseIdx hj)
      · exact h.distinct.sublist ((List.eraseIdx_sublist _ _).map _)

end Runs

/-- From any directory, the registry names the port of every running instance all along exactly
when every start keeps it right. -/
theorem instances_named_iff (u : ULongMax) (files : List CString) (acts : List MachineAction) :
    (∀ front m, front <+: acts → Run (MachineStep u) { files := files, running := [] } front m →
        NamesPorts m) ↔
      ∀ front a m m', front ++ [a] <+: acts →
        Run (MachineStep u) { files := files, running := [] } front m → MachineStep u m a m' →
          a.Keeps u m := by
  have hstart : NamesPorts { files := files, running := [] } :=
    ⟨List.forall_mem_nil _, List.forall_mem_nil _, List.nodup_nil⟩
  exact run_always_iff hstart fun m a m' h hstep => machineStep_namesPorts_iff h hstep

/-- These ports are in use and no others, and none is given out for port 0. -/
def portsInUse (used : List UInt16) : Ports where
  unavailable q := if q ∈ used then some .inUse else none
  anyPort := none
  anyPort_available q hq := by cases hq

def ulongMax64 : ULongMax where
  max := 18446744073709551615
  atLeast := by decide

/-- Two instances on a machine where nothing else listens: the second one gets port 7193, and the
file that both have says 7192. -/
theorem instances_share_file :
    ∃ m, Run (MachineStep ulongMax64) { files := [], running := [] }
        [.start [portStr 7192] (portsInUse []), .start [portStr 7192] (portsInUse [7192])] m ∧
      m.running.map Instance.listening = [7192, 7193] ∧ ¬NamesPorts m := by
  have hlast : instanceRegistryGetLastPort ulongMax64.max (some [portStr 7192]) = 7192 := by
    decide +kernel
  have hfirst : startup ulongMax64 [portStr 7192] (portsInUse []) = .running 7192 := by
    unfold startup
    rw [hlast]
    exact congrArg PortSearch.ending (mainLoop_end rfl)
  have hsecond : startup ulongMax64 [portStr 7192] (portsInUse [7192]) = .running 7193 := by
    unfold startup
    rw [hlast]
    exact congrArg PortSearch.ending (mainLoop_eq (k := 1) (by decide) (by decide) rfl)
  refine ⟨_, .cons (.run (.refl _) (by decide) hfirst) (.cons (.run ?_ (by decide) hsecond) .nil),
    rfl, fun h => ?_⟩
  · decide
  · exact absurd h.distinct (by decide)

end Haze
