import AsyncSimple.Lib.Transition

-- The `SimpleIOExecutor` with libaio, between `Init`, which has succeeded, and `Destroy`.

open Transition

namespace AsyncSimple

inductive IocbCmd
  | IOCB_CMD_PREAD
  | IOCB_CMD_PWRITE
  | IOCB_CMD_FSYNC
  | IOCB_CMD_FDSYNC
  | IOCB_CMD_NOOP
  | IOCB_CMD_PREADV
  | IOCB_CMD_PWRITEV
  deriving DecidableEq, Repr

-- The `data` is the address of a task, for which we use the number of the call that allocates it.
structure Iocb where
  data           : Nat
  aio_lio_opcode : IocbCmd
  aio_fildes     : Int
  buf            : Nat
  nbytes         : Nat
  offset         : Int
  deriving DecidableEq, Repr

structure IoEvent where
  data : Nat
  obj  : Nat
  res  : Nat
  res2 : Nat
  deriving DecidableEq, Repr

namespace SimpleIOExecutor

def kMaxAio : Nat :=
  8

-- A call of `SubmitIO`, with a buffer and its length, or of `SubmitIOV`, with an array of `iovec_t`
-- and its count.
structure Call where
  vectored : Bool
  fd       : Int
  cmd      : IocbCmd
  buffer   : Nat
  length   : Nat
  offset   : Int
  deriving DecidableEq, Repr

-- What `memset` makes of an `iocb`.
def zero : Iocb where
  data           := 0
  aio_lio_opcode := .IOCB_CMD_PREAD
  aio_fildes     := 0
  buf            := 0
  nbytes         := 0
  offset         := 0

def submitIO (fd : Int) (cmd : IocbCmd) (buffer len : Nat) (_offset : Int) (task : Nat) : Iocb :=
  { zero with aio_fildes := fd, aio_lio_opcode := cmd, buf := buffer, nbytes := len, data := task }

def submitIOV (fd : Int) (cmd : IocbCmd) (iov count : Nat) (offset : Int) (task : Nat) : Iocb :=
  { zero with
    aio_fildes := fd, aio_lio_opcode := cmd, buf := iov, offset := offset, nbytes := count, data := task }

def Call.iocb (c : Call) (task : Nat) : Iocb :=
  if c.vectored then
    submitIOV c.fd c.cmd c.buffer c.length c.offset task
  else
    submitIO c.fd c.cmd c.buffer c.length c.offset task

-- What a callback is given: a completion, or an event of which only `res` is set, to the error of
-- `io_submit`.
inductive Answer
  | completion (e : IoEvent)
  | error      (r : Int)
  deriving DecidableEq, Repr

-- A call that has been made, with the address and the content of the `iocb` that it has handed to
-- the kernel, and the result of `io_submit`.
structure Request where
  call : Call
  obj  : Nat
  iocb : Iocb
  r    : Int
  deriving DecidableEq, Repr

-- Where `loop_thread_` is: before it checks the guard of `Loop`, before `io_getevents`, before it
-- processes some events, or at its end.
inductive LoopPc
  | guard
  | getevents
  | process (events : List IoEvent)
  | exited
  deriving DecidableEq, Repr

inductive DestroyPc
  | notCalled
  | join
  | returned
  deriving DecidableEq, Repr

-- The kernel keeps the address of an `iocb` and a copy of it. The requests that it has completed are
-- in `finished`, and those of them that `io_getevents` has not returned in `completed`.
structure Config where
  shutdown_ : Bool
  loop      : LoopPc
  destroy   : DestroyPc
  requests  : List Request
  pending   : List (Nat × Iocb)
  finished  : List IoEvent
  completed : List IoEvent
  deleted   : List Nat
  answers   : List (Nat × Answer)
  fault     : Bool
  deriving DecidableEq, Repr

inductive Action
  | submit (call : Call) (obj : Nat) (r : Int)
  | complete (i : Nat) (res res2 : Nat)
  | guard
  | getevents (n : Option Nat)
  | process
  | destroy
  | join
  deriving DecidableEq, Repr

namespace Config

-- `Process` calls the callback of a task, which is deleted then.
def process (s : Config) (task : Nat) (a : Answer) : Config :=
  { s with
    answers := s.answers ++ [(task, a)]
    deleted := task :: s.deleted
    fault   := s.fault || s.deleted.contains task }

-- `SubmitIO` or `SubmitIOV`. The result of `io_submit` is negative if it refuses the request.
def submit (s : Config) (call : Call) (obj : Nat) (r : Int) : Config :=
  let task := s.requests.length
  let io   := call.iocb task
  let q : Request := { call := call, obj := obj, iocb := io, r := r }
  let s    := { s with requests := s.requests ++ [q] }
  if r < 0 then
    s.process io.data (.error r)
  else
    { s with pending := s.pending ++ [(obj, io)] }

def complete (s : Config) (i : Nat) (res res2 : Nat) : Option Config :=
  s.pending[i]?.map fun p =>
    let e : IoEvent := { data := p.2.data, obj := p.1, res := res, res2 := res2 }
    { s with
      pending   := s.pending.eraseIdx i
      finished  := s.finished ++ [e]
      completed := s.completed ++ [e] }

-- The guard of `Loop`.
def guard (s : Config) : Option Config :=
  if s.loop = .guard then some { s with loop := if s.shutdown_ then .getevents else .exited } else none

-- `io_getevents` fails (`none`), or returns some events, none of them only if there are none.
def getevents (s : Config) (n : Option Nat) : Option Config :=
  match s.loop, n with
  | .getevents, none   => some { s with loop := .guard }
  | .getevents, some n =>
    if n ≤ kMaxAio ∧ n ≤ s.completed.length ∧ (n = 0 → s.completed = []) then
      some { s with loop := .process (s.completed.take n), completed := s.completed.drop n }
    else
      none
  | _, _ => none

def processNext (s : Config) : Option Config :=
  match s.loop with
  | .process []        => some { s with loop := .guard }
  | .process (e :: es) => some { s.process e.data (.completion e) with loop := .process es }
  | _                  => none

def step (s : Config) : Action → Option Config
  | .submit call obj r    => if s.destroy = .notCalled then some (s.submit call obj r) else none
  | .complete i res res2  => s.complete i res res2
  | .guard                => s.guard
  | .getevents n          => s.getevents n
  | .process              => s.processNext
  -- All completions have been made available.
  | .destroy              =>
    if s.destroy = .notCalled ∧ s.pending = [] then
      some { s with shutdown_ := true, destroy := .join }
    else
      none
  | .join                 =>
    if s.destroy = .join ∧ s.loop = .exited then some { s with destroy := .returned } else none

end Config

def init : Config where
  shutdown_ := false
  loop      := .guard
  destroy   := .notCalled
  requests  := []
  pending   := []
  finished  := []
  completed := []
  deleted   := []
  answers   := []
  fault     := false

def system : System Config Action where
  init := init
  step := Config.step

end SimpleIOExecutor
end AsyncSimple
