import AtomicQueue.Common.Places
import AtomicQueue.Model.Remap
import Mathlib.Algebra.Group.Nat.Defs
import Mathlib.Data.List.Sort
/-!
# The processors a benchmark may use

`get_cpu_topology_info` reads the processors listed in `/proc/cpuinfo`, and
`get_available_cpu_topology_info` leaves those in the affinity mask of the
thread. The lines of the file, `std::thread::hardware_concurrency()` and the
mask are arguments here, and an exception is an `Except.error`.
-/

namespace AtomicQueue

namespace CpuTopology

structure CpuTopologyInfo where
  socket_id : Word := 0
  core_id : Word := 0
  hw_thread_id : Word := 0
  deriving DecidableEq

/-- `cpu_set_t`. -/
abbrev CpuSet := BitVec 1024

/-- `CPU_ISSET`, `false` outside the set. -/
def CpuSet.isSet (cpus : CpuSet) (cpu : ℕ) : Bool := cpus.getLsbD cpu

/-- `CPU_COUNT`. -/
def CpuSet.size (cpus : CpuSet) : ℕ := (List.range 1024).countP cpus.isSet

/-! ## The list of processors -/

/-- The members of `CpuTopologyInfo`, as `member_ptrs` lists them. -/
inductive Member
  | socket_id
  | core_id
  | hw_thread_id

/-- What `res` has before the colon. -/
def Member.field : Member → String
  | .socket_id => "physical id"
  | .core_id => "core id"
  | .hw_thread_id => "processor"

/-- The bit of `valid_members`. -/
def Member.mask : Member → Word
  | .socket_id => 1
  | .core_id => 2
  | .hw_thread_id => 4

def CpuTopologyInfo.set (element : CpuTopologyInfo) (value : Word) : Member → CpuTopologyInfo
  | .socket_id => { element with socket_id := value }
  | .core_id => { element with core_id := value }
  | .hw_thread_id => { element with hw_thread_id := value }

/-- `\s+`: what is left after it. -/
def skipSpaces : List Char → Option (List Char)
  | [] => none
  | c :: line => if isSpace c then some (line.dropWhile isSpace) else none
where
  isSpace (c : Char) : Bool := c.toNat = 32 || (9 ≤ c.toNat && c.toNat ≤ 13)

/-- `regex_match` with `field\s+:\s+([0-9]+)`: the digits. -/
def regexMatch (field : String) (line : String) : Option (List Char) := do
  let rest ← field.toList.isPrefixOf? line.toList
  match ← skipSpaces rest with
  | ':' :: rest =>
    let digits ← skipSpaces rest
    if digits ≠ [] ∧ digits.all Char.isDigit then some digits else none
  | _ => none

/-- `std::stoul`, and the conversion to `unsigned`. -/
def stoul (digits : List Char) : Except String Word :=
  let n := digits.foldl (fun n c => 10 * n + (c.toNat - '0'.toNat)) 0
  if n < 2 ^ 64 then .ok (BitVec.ofNat 32 n) else .error "stoul"

/-- The variables of the loop over the lines. -/
structure Parser where
  cpus : List CpuTopologyInfo := []
  element : CpuTopologyInfo := {}
  valid_members : Word := 0

/-- The loop over the members, for one line. -/
def Parser.scan (s : Parser) (line : String) : List Member → Except String Parser
  | [] => .ok s
  | i :: members =>
    -- a member already read is not read again
    if s.valid_members &&& i.mask ≠ 0 then s.scan line members
    else
      match regexMatch i.field line with
      | none => s.scan line members
      | some digits => do
        let value ← stoul digits
        let element := s.element.set value i
        let valid_members := s.valid_members ||| i.mask
        -- all three: the entry is complete
        if valid_members = 7 then
          return { cpus := s.cpus ++ [element], element, valid_members := 0 }
        else return { s with element, valid_members }

/-- `std::sort` by `hw_thread_id`. -/
def sortByHwThreadId (v : List CpuTopologyInfo) : List CpuTopologyInfo :=
  v.insertionSort fun a b => a.hw_thread_id ≤ b.hw_thread_id

def getCpuTopologyInfo (cpuinfo : List String) (hardware_concurrency : Word) :
    Except String (List CpuTopologyInfo) := do
  let s ← cpuinfo.foldlM (fun s line => s.scan line [.socket_id, .core_id, .hw_thread_id])
    ({} : Parser)
  if hardware_concurrency.toNat ≠ s.cpus.length then
    throw "get_cpu_topology_info() invariant broken."
  return sortByHwThreadId s.cpus

/-! ## Those in the mask -/

/-- `cpus` is the affinity mask. What `remove_if` leaves is chosen by the
distance of an entry from the first. -/
def getAvailableCpuTopologyInfo (cpus : CpuSet) (cpuinfo : List String)
    (hardware_concurrency : Word) : Except String (List CpuTopologyInfo) := do
  let c ← getCpuTopologyInfo cpuinfo hardware_concurrency
  let c := Places.select cpus.isSet c
  if cpus.size ≠ c.length then
    throw "get_available_cpu_topology_info() invariant broken."
  return c

end CpuTopology

end AtomicQueue
