/-
  The process table (`proc.c`), line by line: fork, exit, wait, kill, sleep and wakeup.

  A process is its slot of `ptable.proc[]`. A slot is UNUSED, EMBRYO, ZOMBIE or holds a live
  process; a live process is SLEEPING when its thread is asleep, else RUNNABLE or RUNNING. What
  the functions do under `ptable.lock` between two wakeups is one step, and so is each assignment
  that `allocproc` and `fork` make without it. Memory, files and the trap frame are outside the
  model: `kalloc` and `copyuvm` succeed or fail.

  `maker`, `id` and `creator` of a slot and the last three fields of the table are a record that
  no code reads: who is filling in an EMBRYO slot, a number of its own for each process forked
  and for its creator, and the processes that have exited and been returned by `wait`.
-/
import Mathlib.Data.Fintype.Basic
import Zv6.Lib.Monitor
import Zv6.Model.Layout

namespace Zv6.Ptable

open Lib

abbrev Pid := Fin 64

/-- `initproc`: `userinit` takes the first slot. -/
def initproc : Pid := 0

inductive PState where
  | unused
  | embryo
  | live
  | zombie
  deriving DecidableEq

structure Slot where
  state : PState
  pid : Int32
  parent : Option Pid
  killed : Bool
  maker : Option Pid
  id : Nat
  creator : Option (Pid × Nat)

/-- What a `wait` returned: the child, its creator, its parent at that time, and the caller. -/
structure Reap where
  id : Nat
  creator : Option (Pid × Nat)
  parent : Option Pid
  caller : Pid × Nat

structure Table where
  slot : Pid → Slot
  nextpid : Int32
  count : Nat
  exited : List Nat
  reaped : List Reap

inductive Spin where
  | ptable
  | other
  deriving DecidableEq

inductive Chan where
  | proc (p : Pid)
  | other (n : Nat)
  deriving DecidableEq

namespace Table

/-- Assign to fields of slot `q`. -/
def upd (d : Table) (q : Pid) (f : Slot → Slot) : Table :=
  { d with slot := Function.update d.slot q (f (d.slot q)) }

/-- The first slot for which `f` holds. -/
def find (d : Table) (f : Slot → Bool) : Option Pid :=
  (List.finRange 64).find? fun q => f (d.slot q)

/-- `p->state = EMBRYO; p->pid = nextpid++`, for a fork by `p`. -/
def embryo (d : Table) (p np : Pid) : Table :=
  { d.upd np fun x => { x with state := .embryo, pid := d.nextpid, maker := some p } with
    nextpid := d.nextpid + 1 }

/-- `np->state = UNUSED`, when memory has run out. -/
def fail (d : Table) (np : Pid) : Table := d.upd np fun x => { x with state := .unused }

/-- `np->parent = proc` -/
def adopt (d : Table) (p np : Pid) : Table := d.upd np fun x => { x with parent := some p }

/-- `np->state = RUNNABLE` -/
def start (d : Table) (p np : Pid) : Table :=
  { d.upd np fun x =>
      { x with state := .live, id := d.count, creator := some (p, (d.slot p).id) } with
    count := d.count + 1 }

/-- The children of `p` are passed to init. -/
def reparent (d : Table) (p : Pid) : Table :=
  { d with slot := fun q => { d.slot q with
      parent := if (d.slot q).parent = some p then some initproc else (d.slot q).parent } }

/-- `p` has a child that is a zombie. -/
def Bereft (d : Table) (p : Pid) : Prop :=
  ∃ q, (d.slot q).parent = some p ∧ (d.slot q).state = .zombie

instance (d : Table) (p : Pid) : Decidable (d.Bereft p) :=
  inferInstanceAs (Decidable (∃ q, (d.slot q).parent = some p ∧ (d.slot q).state = .zombie))

/-- `proc->state = ZOMBIE` -/
def die (d : Table) (p : Pid) : Table :=
  { d.upd p fun x => { x with state := .zombie } with exited := d.exited ++ [(d.slot p).id] }

/-- The zombie child that `wait` of `p` finds. -/
def child (d : Table) (p : Pid) : Option Pid :=
  d.find fun x => x.parent == some p && x.state == .zombie

/-- `havekids` -/
def havekids (d : Table) (p : Pid) : Bool := (d.find fun x => x.parent == some p).isSome

/-- `wait` of `p` clears the slot of the zombie `q`. -/
def reap (d : Table) (p q : Pid) : Table :=
  { d.upd q fun x => { x with state := .unused, pid := 0, parent := none, killed := false } with
    reaped := d.reaped ++
      [⟨(d.slot q).id, (d.slot q).creator, (d.slot q).parent, (p, (d.slot p).id)⟩] }

/-- The slot that `kill(pid)` finds. -/
def target (d : Table) (pid : Int32) : Option Pid := d.find fun x => x.pid == pid

/-- `p->killed = 1` -/
def setKilled (d : Table) (q : Pid) : Table := d.upd q fun x => { x with killed := true }

end Table

/-- The table once `userinit` has made the first process. -/
def userinit : Table where
  slot q := if q = initproc then ⟨.live, 1, none, false, none, 0, none⟩
    else ⟨.unused, 0, none, false, none, 0, none⟩
  nextpid := 2
  count := 1
  exited := []
  reaped := []

inductive Place where
  | user
  -- fork, allocproc
  | facquire
  | fscan (i : Nat)
  | frelease (np : Option Pid)
  | fkstack (np : Pid)
  | fcopy (np : Pid)
  | fparent (np : Pid)
  | fstart (np : Pid)
  -- exit
  | xclose
  | xwake
  | xreparent
  | xwakeinit
  | xzombie
  | xsched
  -- wait
  | wacquire
  | wscan
  | wsleep
  | wrelease
  -- kill
  | kacquire (pid : Int32)
  | kscan (pid : Int32)
  | krouse (q : Pid)
  | krelease (r : Int32)
  -- sleep and wakeup on some other channel; `x`: while `exit` closes the files
  | sacquire (n : Nat) (x : Bool)
  | ssleep (n : Nat) (x : Bool)
  | srelease (x : Bool)
  | swakeup (n : Nat) (x : Bool)

/-- Where a sleep or wakeup is called from. -/
def Place.caller (x : Bool) : Place := if x then .xclose else .user

abbrev Kernel := Machine Pid Spin Chan Table Place

/-- What the process in slot `p` may do next. -/
inductive code (m : Kernel) (p : Pid) : Place → Instr Pid Spin Chan Table Place → Prop where
  -- fork
  | fork (hp : (m.data.slot p).state = .live) : code m p .user (.set m.data .facquire)
  | facquire : code m p .facquire (.acquire .ptable (.fscan 0))
  | ffound (i) (hi : i < 64) (h : (m.data.slot ⟨i, hi⟩).state = .unused) :
      code m p (.fscan i) (.set (m.data.embryo p ⟨i, hi⟩) (.frelease (some ⟨i, hi⟩)))
  | fnext (i) (hi : i < 64) (h : (m.data.slot ⟨i, hi⟩).state ≠ .unused) :
      code m p (.fscan i) (.set m.data (.fscan (i + 1)))
  | ffull (i) (hi : ¬ i < 64) : code m p (.fscan i) (.set m.data (.frelease none))
  | frelease (np) : code m p (.frelease (some np)) (.release .ptable (.fkstack np))
  | freturn : code m p (.frelease none) (.release .ptable .user)
  | fkstack (np) : code m p (.fkstack np) (.set m.data (.fcopy np))
  | fnostack (np) : code m p (.fkstack np) (.set (m.data.fail np) .user)
  | fcopy (np) : code m p (.fcopy np) (.set m.data (.fparent np))
  | fnocopy (np) : code m p (.fcopy np) (.set (m.data.fail np) .user)
  | fparent (np) : code m p (.fparent np) (.set (m.data.adopt p np) (.fstart np))
  | fstart (np) : code m p (.fstart np) (.set (m.data.start p np) .user)
  -- exit; init panics
  | exit (hp : (m.data.slot p).state = .live) (hi : p ≠ initproc) :
      code m p .user (.set m.data .xclose)
  | xacquire : code m p .xclose (.acquire .ptable .xwake)
  | xwake (r) (h : (m.data.slot p).parent = some r) :
      code m p .xwake (.wakeup1 (.proc r) .xreparent)
  | xnoparent (h : (m.data.slot p).parent = none) : code m p .xwake (.set m.data .xreparent)
  | xzombies (h : m.data.Bereft p) : code m p .xreparent (.set (m.data.reparent p) .xwakeinit)
  | xreparent (h : ¬ m.data.Bereft p) : code m p .xreparent (.set (m.data.reparent p) .xzombie)
  | xwakeinit : code m p .xwakeinit (.wakeup1 (.proc initproc) .xzombie)
  | xzombie : code m p .xzombie (.set (m.data.die p) .xsched)
  | xsched : code m p .xsched (.release .ptable .user)
  -- wait
  | wait (hp : (m.data.slot p).state = .live) : code m p .user (.set m.data .wacquire)
  | wacquire : code m p .wacquire (.acquire .ptable .wscan)
  | wfound (q) (h : m.data.child p = some q) :
      code m p .wscan (.set (m.data.reap p q) .wrelease)
  | wleave (h : m.data.child p = none)
      (hk : m.data.havekids p = false ∨ (m.data.slot p).killed = true) :
      code m p .wscan (.set m.data .wrelease)
  | wstay (h : m.data.child p = none)
      (hk : ¬ (m.data.havekids p = false ∨ (m.data.slot p).killed = true)) :
      code m p .wscan (.set m.data .wsleep)
  | wsleep : code m p .wsleep (.sleep (.proc p) .ptable .wscan)
  | wrelease : code m p .wrelease (.release .ptable .user)
  -- kill
  | kill (pid) (hp : (m.data.slot p).state = .live) : code m p .user (.set m.data (.kacquire pid))
  | kacquire (pid) : code m p (.kacquire pid) (.acquire .ptable (.kscan pid))
  | kfound (pid q) (h : m.data.target pid = some q) :
      code m p (.kscan pid) (.set (m.data.setKilled q) (.krouse q))
  | knone (pid) (h : m.data.target pid = none) :
      code m p (.kscan pid) (.set m.data (.krelease (-1)))
  | krouse (q) : code m p (.krouse q) (.rouse q (.krelease 0))
  | krelease (r) : code m p (.krelease r) (.release .ptable .user)
  -- sleep and wakeup
  | sleep (n x t) (ht : t = Place.caller x) (hp : (m.data.slot p).state = .live) :
      code m p t (.set m.data (.sacquire n x))
  | sacquire (n x) : code m p (.sacquire n x) (.acquire .other (.ssleep n x))
  | ssleep (n x) : code m p (.ssleep n x) (.sleep (.other n) .other (.srelease x))
  | srelease (x) : code m p (.srelease x) (.release .other (.caller x))
  | wakeup (n x t) (ht : t = Place.caller x) (hp : (m.data.slot p).state = .live) :
      code m p t (.set m.data (.swakeup n x))
  | swakeup (n x) : code m p (.swakeup n x) (.wakeup (.other n) (.caller x))

/-- The locks held at each place. -/
def holds : Place → Set Spin
  | .fscan _ => {.ptable}
  | .frelease _ => {.ptable}
  | .xwake => {.ptable}
  | .xreparent => {.ptable}
  | .xwakeinit => {.ptable}
  | .xzombie => {.ptable}
  | .xsched => {.ptable}
  | .wscan => {.ptable}
  | .wsleep => {.ptable}
  | .wrelease => {.ptable}
  | .kscan _ => {.ptable}
  | .krouse _ => {.ptable}
  | .krelease _ => {.ptable}
  | .ssleep _ _ => {.other}
  | .srelease _ => {.other}
  | _ => ∅

@[simp] theorem holds_caller (x : Bool) : holds (.caller x) = ∅ := by cases x <;> rfl

theorem code_fits (m : Kernel) (p : Pid) (t : Place) (i : Instr Pid Spin Chan Table Place)
    (h : code m p t i) : Instr.Fits Spin.ptable holds t i := by
  cases h <;> simp_all only [Instr.Fits, holds_caller] <;> simp [holds]

/-- A run of the processes from the first one on. -/
def Runs : Kernel → Kernel → Prop := Steps Spin.ptable code

/-- The state after `userinit`. -/
def boot : Kernel := ⟨userinit, fun _ => none, fun _ => .at .user⟩

theorem boot_locks : LockInv Spin.ptable holds boot := by
  refine ⟨fun _ => trivial, fun p l => ?_⟩
  simp [boot, Thr.locks, holds]

end Zv6.Ptable
