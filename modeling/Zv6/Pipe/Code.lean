/-
  Pipes (`pipe.c`), line by line.

  Any number of processes `P` share one pipe. A process is at a place of `pipewrite`, `piperead`,
  `pipeclose` or `kill`, or outside of them (`user`); the places are named after the lines of the
  source. `killed` is the flag of each process.

  A process gets into `pipewrite` or `piperead` through a descriptor. `wfile` and `rfile` say that
  the file structure of an end still has references; `fileclose` drops the last one while no
  process is inside a call on that end, since such a process has a descriptor of its own.

  `stored` and `taken` record each byte stored and each byte copied out, with the process, and
  `sent` and `got` what each process stored and copied in the calls it has finished. No code
  reads them. Nor does it read `told`, the bytes of a call that readers were told of.
-/
import Zv6.Lib.Monitor
import Zv6.Lib.Ring

namespace Zv6.Ipc

open Lib Function

inductive Spin where
  | lock
  | ptable
  deriving DecidableEq

inductive Chan where
  | nread
  | nwrite
  deriving DecidableEq

structure Pipe (P : Type) where
  data : Fin 512 → UInt8
  nread : UInt32
  nwrite : UInt32
  readopen : Bool
  writeopen : Bool
  rfile : Bool
  wfile : Bool
  freed : Bool
  killed : P → Bool
  stored : List (P × UInt8)
  taken : List (P × UInt8)
  sent : P → List UInt8
  got : P → List UInt8

/-- The locals of `pipewrite(p, addr, n)`: `src` are the `n` bytes at `addr`. -/
structure Writing where
  src : List UInt8
  n : Int
  i : Nat
  told : Nat

inductive Place (P : Type) where
  | user
  -- pipewrite
  | wacquire (w : Writing)
  | wfor (w : Writing)
  | wfull (w : Writing)
  | wcheck (w : Writing)
  | wwake (w : Writing)
  | wsleep (w : Writing)
  | wstore (w : Writing)
  | wend (w : Writing)
  | wrelease (w : Writing) (r : Int)
  | wreturn (w : Writing) (r : Int)
  -- piperead, with the bytes copied so far
  | racquire (n : Int)
  | rempty (n : Int)
  | rcheck (n : Int)
  | rsleep (n : Int)
  | rcopy (n : Int) (dst : List UInt8)
  | rwake (n : Int) (dst : List UInt8)
  | rrelease (n : Int) (dst : List UInt8) (r : Int)
  | rreturn (n : Int) (dst : List UInt8) (r : Int)
  -- pipeclose
  | cacquire (writable : Bool)
  | cset (writable : Bool)
  | cwake (writable : Bool)
  | ctest
  | crelease (last : Bool)
  | cfree
  -- kill
  | kacquire (q : P)
  | kset (q : P)
  | krouse (q : P)
  | krelease

variable {P : Type}

/-! ## The buffer -/

theorem pipesize_pos : 0 < 512 := by decide

/-- `i % PIPESIZE`. -/
def idx (i : UInt32) : Fin 512 := slot pipesize_pos i

namespace Pipe

/-- `p->nwrite == p->nread + PIPESIZE` -/
def Full (d : Pipe P) : Prop := d.nwrite = d.nread + 512

/-- `p->nread == p->nwrite` -/
def Empty (d : Pipe P) : Prop := d.nread = d.nwrite

instance (d : Pipe P) : Decidable d.Full := inferInstanceAs (Decidable (_ = _))

instance (d : Pipe P) : Decidable d.Empty := inferInstanceAs (Decidable (_ = _))

/-- `p->data[p->nwrite++ % PIPESIZE] = b`, by process `q`. -/
def store (d : Pipe P) (q : P) (b : UInt8) : Pipe P :=
  { d with
    data := update d.data (idx d.nwrite) b
    nwrite := d.nwrite + 1
    stored := d.stored ++ [(q, b)] }

/-- `p->data[p->nread % PIPESIZE]` -/
def next (d : Pipe P) : UInt8 := d.data (idx d.nread)

/-- `p->nread++`, after process `q` has copied the byte. -/
def fetch (d : Pipe P) (q : P) : Pipe P :=
  { d with nread := d.nread + 1, taken := d.taken ++ [(q, d.next)] }

/-- `nwrite - nread` modulo 2^32. -/
def count (d : Pipe P) : Nat := (d.nwrite - d.nread).toNat

/-- The bytes still buffered, the oldest first. -/
def queue (d : Pipe P) : List UInt8 :=
  window pipesize_pos d.data d.nread d.count

end Pipe

/-- A new pipe, with a descriptor for each end. -/
def pipealloc (killed : P → Bool) (data : Fin 512 → UInt8) : Pipe P :=
  { data, nread := 0, nwrite := 0, readopen := true, writeopen := true, rfile := true,
    wfile := true, freed := false, killed, stored := [], taken := [], sent := fun _ => [],
    got := fun _ => [] }

/-! ## The code -/

abbrev Kernel (P : Type) := Machine P Spin Chan (Pipe P) (Place P)

/-- The places of `pipewrite`. -/
def Place.writing : Place P → Option Writing
  | .wacquire w => some w
  | .wfor w => some w
  | .wfull w => some w
  | .wcheck w => some w
  | .wwake w => some w
  | .wsleep w => some w
  | .wstore w => some w
  | .wend w => some w
  | .wrelease w _ => some w
  | .wreturn w _ => some w
  | _ => none

/-- The places of `piperead`, with the bytes copied. -/
def Place.reading : Place P → Option (List UInt8)
  | .racquire _ => some []
  | .rempty _ => some []
  | .rcheck _ => some []
  | .rsleep _ => some []
  | .rcopy _ dst => some dst
  | .rwake _ dst => some dst
  | .rrelease _ dst _ => some dst
  | .rreturn _ dst _ => some dst
  | _ => none

section Code

variable [DecidableEq P]

/-- What process `p` may do next. -/
inductive code (m : Kernel P) (p : P) : Place P → Instr P Spin Chan (Pipe P) (Place P) → Prop where
  -- pipewrite
  | pipewrite (src : List UInt8) (n : Int) (hsrc : src.length = n.toNat)
      (hf : m.data.wfile = true) : code m p .user (.set m.data (.wacquire ⟨src, n, 0, 0⟩))
  | wacquire (w) : code m p (.wacquire w) (.acquire .lock (.wfor w))
  | wfor (w) (h : (w.i : Int) < w.n) : code m p (.wfor w) (.set m.data (.wfull w))
  | wdone (w) (h : ¬ (w.i : Int) < w.n) : code m p (.wfor w) (.set m.data (.wend w))
  | wfull (w) (h : m.data.Full) : code m p (.wfull w) (.set m.data (.wcheck w))
  | wroom (w) (h : ¬ m.data.Full) : code m p (.wfull w) (.set m.data (.wstore w))
  | wleave (w) (h : m.data.readopen = false ∨ m.data.killed p = true) :
      code m p (.wcheck w) (.set m.data (.wrelease w (-1)))
  | wstay (w) (h : ¬ (m.data.readopen = false ∨ m.data.killed p = true)) :
      code m p (.wcheck w) (.set m.data (.wwake w))
  | wwake (w) : code m p (.wwake w) (.wakeup .nread (.wsleep { w with told := w.i }))
  | wsleep (w) : code m p (.wsleep w) (.sleep .nwrite .lock (.wfull w))
  | wstore (w) : code m p (.wstore w)
      (.set (m.data.store p (w.src.getD w.i 0)) (.wfor { w with i := w.i + 1 }))
  | wend (w) : code m p (.wend w) (.wakeup .nread (.wrelease { w with told := w.i } w.n))
  | wrelease (w r) : code m p (.wrelease w r) (.release .lock (.wreturn w r))
  | wreturn (w r) : code m p (.wreturn w r) (.set
      { m.data with sent := update m.data.sent p (m.data.sent p ++ w.src.take w.i) } .user)
  -- piperead
  | piperead (n : Int) (hf : m.data.rfile = true) : code m p .user (.set m.data (.racquire n))
  | racquire (n) : code m p (.racquire n) (.acquire .lock (.rempty n))
  | rempty (n) (h : m.data.Empty ∧ m.data.writeopen = true) :
      code m p (.rempty n) (.set m.data (.rcheck n))
  | rready (n) (h : ¬ (m.data.Empty ∧ m.data.writeopen = true)) :
      code m p (.rempty n) (.set m.data (.rcopy n []))
  | rleave (n) (h : m.data.killed p = true) :
      code m p (.rcheck n) (.set m.data (.rrelease n [] (-1)))
  | rstay (n) (h : m.data.killed p = false) : code m p (.rcheck n) (.set m.data (.rsleep n))
  | rsleep (n) : code m p (.rsleep n) (.sleep .nread .lock (.rempty n))
  | rcopy (n dst) (h : (dst.length : Int) < n) (hne : ¬ m.data.Empty) : code m p (.rcopy n dst)
      (.set (m.data.fetch p) (.rcopy n (dst ++ [m.data.next])))
  | rdone (n dst) (h : ¬ (dst.length : Int) < n ∨ m.data.Empty) :
      code m p (.rcopy n dst) (.set m.data (.rwake n dst))
  | rwake (n dst) : code m p (.rwake n dst) (.wakeup .nwrite (.rrelease n dst dst.length))
  | rrelease (n dst r) : code m p (.rrelease n dst r) (.release .lock (.rreturn n dst r))
  | rreturn (n dst r) : code m p (.rreturn n dst r) (.set
      { m.data with got := update m.data.got p (m.data.got p ++ dst) } .user)
  -- pipeclose, once the last reference to an end is dropped
  | pipecloseWrite (hf : m.data.wfile = true)
      (hno : ∀ q, q ≠ p → (m.thr q).place.writing = none) :
      code m p .user (.set { m.data with wfile := false } (.cacquire true))
  | pipecloseRead (hf : m.data.rfile = true)
      (hno : ∀ q, q ≠ p → (m.thr q).place.reading = none) :
      code m p .user (.set { m.data with rfile := false } (.cacquire false))
  | cacquire (w) : code m p (.cacquire w) (.acquire .lock (.cset w))
  | csetWrite : code m p (.cset true) (.set { m.data with writeopen := false } (.cwake true))
  | csetRead : code m p (.cset false) (.set { m.data with readopen := false } (.cwake false))
  | cwakeWrite : code m p (.cwake true) (.wakeup .nread .ctest)
  | cwakeRead : code m p (.cwake false) (.wakeup .nwrite .ctest)
  | ctest : code m p .ctest (.set m.data
      (.crelease (m.data.readopen == false && m.data.writeopen == false)))
  | crelease (last) : code m p (.crelease last) (.release .lock (if last then .cfree else .user))
  | cfree : code m p .cfree (.set { m.data with freed := true } .user)
  -- kill
  | kill (q : P) : code m p .user (.set m.data (.kacquire q))
  | kacquire (q) : code m p (.kacquire q) (.acquire .ptable (.kset q))
  | kset (q) : code m p (.kset q)
      (.set { m.data with killed := update m.data.killed q true } (.krouse q))
  | krouse (q) : code m p (.krouse q) (.rouse q .krelease)
  | krelease : code m p .krelease (.release .ptable .user)

/-- A run of the processes on one pipe. -/
def Runs : Kernel P → Kernel P → Prop := Steps Spin.ptable code

/-- The pipe is new, no process is in the pipe code and no lock is taken. -/
structure Boots (m : Kernel P) : Prop where
  data : ∃ killed data, m.data = pipealloc killed data
  lock : ∀ l, m.lock l = none
  thr : ∀ p, m.thr p = .at .user

end Code

/-- The locks held at each place. -/
def holds : Place P → Set Spin
  | .wfor _ => {.lock}
  | .wfull _ => {.lock}
  | .wcheck _ => {.lock}
  | .wwake _ => {.lock}
  | .wsleep _ => {.lock}
  | .wstore _ => {.lock}
  | .wend _ => {.lock}
  | .wrelease _ _ => {.lock}
  | .rempty _ => {.lock}
  | .rcheck _ => {.lock}
  | .rsleep _ => {.lock}
  | .rcopy _ _ => {.lock}
  | .rwake _ _ => {.lock}
  | .rrelease _ _ _ => {.lock}
  | .cset _ => {.lock}
  | .cwake _ => {.lock}
  | .ctest => {.lock}
  | .crelease _ => {.lock}
  | .kset _ => {.ptable}
  | .krouse _ => {.ptable}
  | .krelease => {.ptable}
  | _ => ∅

theorem Boots.locks {m : Kernel P} (h : Boots m) : LockInv Spin.ptable holds m := by
  refine ⟨fun p => ?_, fun p l => ?_⟩
  · rw [h.thr p]
    exact trivial
  · rw [h.thr p, h.lock l]
    simp [Thr.locks, holds]

theorem code_fits [DecidableEq P] (m : Kernel P) (p : P) (t : Place P)
    (i : Instr P Spin Chan (Pipe P) (Place P)) (h : code m p t i) :
    Instr.Fits Spin.ptable holds t i := by
  cases h with
  | crelease last => cases last <;> simp [Instr.Fits, holds]
  | _ => simp [Instr.Fits, holds]

/-! ## Three processes -/

/-- A state of three processes: who has the pipe's lock and the table's, and where each is. -/
def three (d : Pipe (Fin 3)) (l t : Option (Fin 3)) (a b c : Thr Spin Chan (Place (Fin 3))) :
    Kernel (Fin 3) where
  data := d
  lock
    | .lock => l
    | .ptable => t
  thr
    | 0 => a
    | 1 => b
    | 2 => c

/-- The three processes before they have done anything. -/
def idle : Kernel (Fin 3) :=
  three (pipealloc (fun _ => false) fun _ => 0) none none (.at .user) (.at .user) (.at .user)

theorem idle_boots : Boots idle :=
  ⟨⟨_, _, rfl⟩, fun l => by cases l <;> rfl, fun p => by
    match p with
    | 0 => rfl
    | 1 => rfl
    | 2 => rfl⟩

section Three

variable {d : Pipe (Fin 3)} {l t : Option (Fin 3)} {a b c x : Thr Spin Chan (Place (Fin 3))}

@[simp] theorem three_go (p : Fin 3) : (three d l t a b c).go p x =
    three d l t (if p = 0 then x else a) (if p = 1 then x else b) (if p = 2 then x else c) := by
  unfold Machine.go three
  congr 1
  funext q
  match p, q with
  | 0, 0 => rfl
  | 0, 1 => rfl
  | 0, 2 => rfl
  | 1, 0 => rfl
  | 1, 1 => rfl
  | 1, 2 => rfl
  | 2, 0 => rfl
  | 2, 1 => rfl
  | 2, 2 => rfl

@[simp] theorem three_take (p : Fin 3) (k : Spin) : (three d l t a b c).take p k =
    match k with
    | .lock => three d (some p) t a b c
    | .ptable => three d l (some p) a b c := by
  cases k <;> (unfold Machine.take three; congr 1; funext k; cases k <;> rfl)

@[simp] theorem three_give (k : Spin) : (three d l t a b c).give k =
    match k with
    | .lock => three d none t a b c
    | .ptable => three d l none a b c := by
  cases k <;> (unfold Machine.give three; congr 1; funext k; cases k <;> rfl)

theorem three_rouse : (three d l t a b c).rouse 1 = three d l t a b.roused c := by
  unfold Machine.rouse three
  congr 1
  funext q
  match q with
  | 0 => rfl
  | 1 => rfl
  | 2 => rfl

end Three

theorem Runs.trans [DecidableEq P] {m m1 m2 : Kernel P} (h : Runs m m1) (h' : Runs m1 m2) :
    Runs m m2 := Relation.ReflTransGen.trans h h'

/-- One step, then the rest of the run. -/
theorem Runs.step [DecidableEq P] {m m' m2 : Kernel P} (p : P) (m1 : Kernel P)
    (hs : Step Spin.ptable code p m m') (e : m' = m1) (hr : Runs m1 m2) : Runs m m2 :=
  Steps.step hs e hr

end Zv6.Ipc
