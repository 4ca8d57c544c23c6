import CFunc.Lib.CInt
import CFunc.Lib.Mutex
import CFunc.Lib.Reactive

/-!
The threads of `pthread/pthread_dead_lock.c`.

Two threads lock the mutexes of two players, each its own first. A third locks
one mutex after the other and counts, and a fourth takes a count that stands
still for a deadlock, and asks which mutex to unlock. Whoever's turn it is does
one statement; a thread that waits does nothing. What a macro notes of a mutex is
one statement, and so is the look through the list; what is read without a lock
is read in the order of the turns. Sleeping takes no turn, threads can always be
created, and what is printed of shares that are not locked is left out.
-/

namespace CFunc.Pthread

open CFunc.Lib

inductive Player where
  | A
  | B
  deriving DecidableEq

namespace Player

def other : Player → Player
  | A => B
  | B => A

theorem other_other (p : Player) : p.other.other = p := by cases p <;> rfl

theorem other_ne (p : Player) : p.other ≠ p := by
  cases p
  · exact Player.noConfusion
  · exact Player.noConfusion

theorem eq_or_other (p q : Player) : q = p ∨ q = p.other := by
  cases p <;> cases q <;> simp [other]

end Player

inductive Thread where
  | main
  | worker (p : Player)
  | detect_deadlock
  | detect_count
  deriving DecidableEq

/-- `list->list`, by the players that the mutexes belong to. -/
def list : List Player := [.A, .B]

/-! ### Statements -/

/-- The statements of `thread_fun_A` and `thread_fun_B`. The macros of the source note the line
where they are used. -/
inductive Stmt where
  | mutex_lock (p : Player)
  | note_status (p : Player) (line : Nat)
  | add_share (p : Player) (k : Int)
  | set_share (p q : Player) (k : Int)
  | clear_status (p : Player)
  | mutex_unlock (p : Player)

def PLAYER_MUXTEX_LOCK (p : Player) (line : Nat) : List Stmt :=
  [.mutex_lock p, .note_status p line]

def PLAYER_MUXTEX_UNLOCK (p : Player) : List Stmt :=
  [.clear_status p, .mutex_unlock p]

/-- What both threads do, with the lines of their locks. -/
def thread_fun (own other : Player) (k : Int) (own_line other_line : Nat) : List Stmt :=
  PLAYER_MUXTEX_LOCK own own_line ++ [.add_share own k] ++
    PLAYER_MUXTEX_LOCK other other_line ++ [.set_share own other k] ++
    PLAYER_MUXTEX_UNLOCK other ++ PLAYER_MUXTEX_UNLOCK own

def thread_fun_A : List Stmt := thread_fun .A .B 2 139 147

def thread_fun_B : List Stmt := thread_fun .B .A 3 165 173

namespace Player

def thread_fun : Player → List Stmt
  | A => thread_fun_A
  | B => thread_fun_B

/-- What the thread of the player adds. -/
def added : Player → Int
  | A => 2
  | B => 3

/-- Where it locks its own mutex, and where the other's. -/
def lines : Player → Nat × Nat
  | A => (139, 147)
  | B => (165, 173)

theorem thread_fun_eq (p : Player) :
    p.thread_fun = Pthread.thread_fun p p.other p.added p.lines.1 p.lines.2 := by
  cases p <;> rfl

end Player

inductive MainStmt where
  | create (t : Thread)
  | join (t : Thread)
  | cancel (t : Thread)
  | mutex_destroy
  | print_shares
  deriving DecidableEq

def main_fun : List MainStmt :=
  [.create (.worker .A), .create (.worker .B), .create .detect_deadlock, .create .detect_count,
    .join (.worker .A), .join (.worker .B), .cancel .detect_count, .cancel .detect_deadlock,
    .join .detect_count, .join .detect_deadlock, .mutex_destroy, .print_shares]

/-! ### States -/

/-- What `loop_detect_deadlock_thread` does next. It can be cancelled in `pthread_testcancel` and
in `sleep`. -/
inductive Detect where
  | lock
  | count
  | unlock
  | testcancel
  | sleep
  | ended
  deriving DecidableEq

/-- What `loop_detect_count_thread` does next. It can be cancelled anywhere. -/
inductive Counter where
  | read
  | compare (temp : Int)
  | prompt
  | ended
  deriving DecidableEq

structure State where
  owner : Mutex.Owners Thread Player
  mute_status : Player → Bool
  line : Player → Nat
  share : Player → Int
  count : Int
  pc : Player → Nat
  i : Nat
  detect : Detect
  counter : Counter
  main : Nat

/-- `init` -/
def State.start : State where
  owner _ := none
  mute_status _ := false
  line _ := 0
  share _ := 0
  count := 0
  pc _ := 0
  i := 0
  detect := .lock
  counter := .read
  main := 0

namespace State

variable (s : State)

def did (m : MainStmt) : Prop := m ∈ main_fun.take s.main

instance (m : MainStmt) : Decidable (s.did m) := inferInstanceAs (Decidable (_ ∈ _))

def ended : Thread → Prop
  | .main => False
  | .worker p => s.pc p = p.thread_fun.length
  | .detect_deadlock => s.detect = .ended
  | .detect_count => s.counter = .ended

instance (t : Thread) : Decidable (s.ended t) :=
  match t with
  | .main => inferInstanceAs (Decidable False)
  | .worker _ => inferInstanceAs (Decidable (_ = _))
  | .detect_deadlock => inferInstanceAs (Decidable (_ = _))
  | .detect_count => inferInstanceAs (Decidable (_ = _))

end State

/-! ### Steps -/

/-- What is printed. A mutex that is found locked is printed with its index and the line. -/
inductive Event where
  | dead_lock (locked : List (Nat × Nat))
  | please_input
  | input_error
  | shares (a b : Int)
  deriving DecidableEq

/-- A thread does its next statement, the count thread is cancelled if it is to be, or it reads the
number that is typed in. -/
inductive Turn where
  | thread (t : Thread)
  | cancelled
  | input (index : Int)
  deriving DecidableEq

abbrev Response := Reactive.Response State Event

def goes_on (s : State) (output : List Event) : Option Response :=
  some { state := s, output := output, stopped := false }

/-- A destroyed mutex is not to be locked. -/
def pthread_mutex_lock (t : Thread) (p : Player) (s : State) : Option (Option State) :=
  if s.did .mutex_destroy then none
  else (Mutex.lock t p s.owner).map fun locked => locked.map fun owner => { s with owner := owner }

def pthread_mutex_unlock (t : Thread) (p : Player) (s : State) : Option State :=
  if s.did .mutex_destroy then none
  else (Mutex.unlock t p s.owner).map fun owner => { s with owner := owner }

/-- One statement of the thread `t`; `some none` makes it wait. -/
def Stmt.exec (t : Thread) (s : State) : Stmt → Option (Option State)
  | mutex_lock p => pthread_mutex_lock t p s
  | note_status p line =>
      some (some { s with mute_status := Function.update s.mute_status p true
                          line := Function.update s.line p line })
  | add_share p k => do
      let share ← addInt (s.share p) k
      return some { s with share := Function.update s.share p share }
  | set_share p q k => do
      let share ← addInt (s.share q) k
      return some { s with share := Function.update s.share p share }
  | clear_status p => some (some { s with mute_status := Function.update s.mute_status p false })
  | mutex_unlock p => (pthread_mutex_unlock t p s).map some

def step_worker (p : Player) (s : State) : Option Response :=
  match p.thread_fun[s.pc p]? with
  | none => goes_on s []
  | some stmt => do
      match ← stmt.exec (.worker p) s with
      | none => goes_on s []
      | some s => goes_on { s with pc := Function.update s.pc p (s.pc p + 1) } []

def loop_detect_deadlock_thread (s : State) : Option Response :=
  match s.detect with
  | .lock => do
      let p ← list[s.i]?
      match ← pthread_mutex_lock .detect_deadlock p s with
      | none => goes_on s []
      | some s => goes_on { s with detect := .count } []
  | .count => do
      let count ← addInt s.count 1
      goes_on { s with count := count, detect := .unlock } []
  | .unlock => do
      let p ← list[s.i]?
      let s ← pthread_mutex_unlock .detect_deadlock p s
      goes_on { s with detect := .testcancel } []
  | .testcancel =>
      let s := { s with i := (s.i + 1) % list.length }
      if s.did (.cancel .detect_deadlock) then goes_on { s with detect := .ended } []
      else goes_on { s with detect := .sleep } []
  | .sleep =>
      if s.did (.cancel .detect_deadlock) then goes_on { s with detect := .ended } []
      else goes_on { s with detect := .lock } []
  | .ended => goes_on s []

/-- The mutexes whose status is locked, by their indices, and the lines where they were locked. -/
def found_locked (s : State) : List (Nat × Nat) :=
  (list.zipIdx.filter fun entry => s.mute_status entry.1).map fun entry => (entry.2, s.line entry.1)

def loop_detect_count_thread (s : State) : Option Response :=
  match s.counter with
  | .read => goes_on { s with counter := .compare s.count } []
  | .compare temp =>
      if temp = s.count then
        goes_on { s with counter := .prompt } [.dead_lock (found_locked s), .please_input]
      else goes_on { s with counter := .read } []
  | .prompt | .ended => goes_on s []

/-- After `scanf`. The mutex is unlocked by the count thread, which has not locked it. -/
def handle_dead_lock (index : Int) (s : State) : Option Response :=
  if 0 ≤ index ∧ index < list.length then do
    let p ← list[index.toNat]?
    let s := { s with mute_status := Function.update s.mute_status p false }
    let s ← pthread_mutex_unlock .detect_count p s
    goes_on { s with counter := .read } []
  else goes_on s [.input_error, .please_input]

/-- When `main` returns, everything ends. -/
def main (s : State) : Option Response :=
  let next := { s with main := s.main + 1 }
  match main_fun[s.main]? with
  | none => goes_on s []
  | some (.create _) | some (.cancel _) => goes_on next []
  | some (.join t) => if s.ended t then goes_on next [] else goes_on s []
  | some .mutex_destroy => if ∀ p ∈ list, s.owner p = none then goes_on next [] else none
  | some .print_shares =>
      some { state := next, output := [.shares (s.share .A) (s.share .B)], stopped := true }

/-- A turn of a thread that has not been created passes. -/
def step (turn : Turn) (s : State) : Option Response :=
  match turn with
  | .thread .main => main s
  | .thread (.worker p) =>
      if s.did (.create (.worker p)) then step_worker p s else goes_on s []
  | .thread .detect_deadlock =>
      if s.did (.create .detect_deadlock) then loop_detect_deadlock_thread s else goes_on s []
  | .thread .detect_count =>
      if s.did (.create .detect_count) then loop_detect_count_thread s else goes_on s []
  | .cancelled =>
      if s.did (.cancel .detect_count) then goes_on { s with counter := .ended } []
      else goes_on s []
  | .input index => if s.counter = .prompt then handle_dead_lock index s else goes_on s []

end CFunc.Pthread
