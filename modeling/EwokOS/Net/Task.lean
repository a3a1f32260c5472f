import EwokOS.Schemes.Run
import Mathlib.Data.Int.Notation
import Mathlib.Data.List.Nodup

/-! The socket tasks of netd (`netd.c`, `task.c`, and the slots of `stack/sock.c`).

    Every open of `/dev/net0` has a vfs node and a task of its own. A pool worker enters an operation on
    the task (`task_begin_op`), keeps the id of the bound socket, and leaves it (`task_end_op`); the last
    close of the node takes the task down.

        SOCK_OPEN    sock_open ─▶ bind              SOCK_CLOSE   detach ─▶ wait ─▶ sock_close
        SOCK_LINK    bind                           SOCK_ACCEPT  sock_alloc

        network_close ─▶ unlist ─▶ detach ─▶ wait ─┬─ nobody in flight ─▶ sock_close ─▶ destroy
                                                   └─ dead: to the last one out

    Each section under a lock is one step, and a worker may rest anywhere. A task is named by its node,
    which vfsd never gives out twice. -/

namespace EwokOS.Net.Netd

/-- `SOCKS_MAX`. -/
def socksMax : ℕ := 160

/-- `TASK_DRAIN_POLL_MAX`. -/
def drainPollMax : ℕ := 1000

/-- A socket id in somebody's hands. `life` is ghost: which of the sockets that the slot held it was. -/
structure Ref where
  id : ℤ
  life : ℕ
  deriving DecidableEq, Repr

def Ref.unbound : Ref := ⟨-1, 0⟩

/-- An id that `sock_get` looks up. -/
def inTable (id : ℤ) : Prop := 0 ≤ id ∧ id < socksMax

instance (id : ℤ) : Decidable (inTable id) := inferInstanceAs (Decidable (_ ∧ _))

/-- `net_task_t`. -/
structure Task where
  sock : Ref
  refs : ℕ
  inflight : ℕ
  finSock : Ref
  closing : Bool
  dead : Bool
  deriving Repr

/-- The requests that enter an operation. Those that do no more than use the bound socket (`SOCK_BIND`,
    `SOCK_LISTEN`, `SOCK_SEND`, read, write, poll and the like) are `use`. -/
inductive Req where
  | use
  | sockOpen
  | sockLink (id : ℤ)
  | sockAccept
  | sockClose
  deriving DecidableEq, Repr

/-- Where a pool worker is. -/
inductive Pc where
  | idle
  /-- After `task_begin_op` for a process, with the snapshot. -/
  | serving (req : Req) (node pid : ℕ) (sock : Ref)
  /-- `SOCK_OPEN`, with what `sock_open` returned. -/
  | opened (node : ℕ) (sock got : Ref)
  /-- `SOCK_CLOSE` in `task_wait_other_ops`, after `i` polls. -/
  | draining (node : ℕ) (old : Ref) (i : ℕ)
  /-- `SOCK_CLOSE` before `sock_close`. -/
  | closing (node : ℕ) (old : Ref)
  /-- Before `task_end_op`. -/
  | ending (node : ℕ) (sock : Ref)
  /-- In `release_task`, before `task_list_remove`. -/
  | release (node : ℕ)
  /-- Before `task_detach_sock`. -/
  | unlisted (node : ℕ)
  /-- In `task_wait_other_ops`, after `i` polls. -/
  | waiting (node : ℕ) (fin : Ref) (i : ℕ)
  /-- Before the second look at `inflight`. -/
  | recheck (node : ℕ) (fin : Ref)
  /-- Before `sock_close(fin_sock)`, here or in `task_end_op`. -/
  | finish (node : ℕ) (fin : Ref)
  /-- Before `task_destroy`. -/
  | destroy (node : ℕ)
  deriving DecidableEq, Repr

/-- Ghost. The sockets are counted as they are made, and by that number: the node whose `SOCK_OPEN` made it,
    the process that accepted it, the node and process of the last link, the node it was bound to last, and
    how often it was given to `sock_close`. Last, how often each task was freed. -/
structure Past where
  lives : ℕ
  opened : ℕ → Option ℕ
  accepted : ℕ → Option ℕ
  linked : ℕ → Option (ℕ × ℕ)
  bound : ℕ → Option ℕ
  closes : ℕ → ℕ
  freed : ℕ → ℕ

/-- The tasks by node, `task_list`, `sock_to_task`, `socks[].used`, the workers and the next node of vfsd;
    `life` and `past` are ghost. -/
structure Daemon (ω : Type) where
  task : ℕ → Option Task
  list : List ℕ
  sockToTask : ℤ → Option ℕ
  used : ℤ → Bool
  pc : ω → Pc
  nodes : ℕ
  life : ℤ → ℕ
  past : Past

/-- What the daemon starts from; node 0 is never given out. -/
def Daemon.start {ω : Type} : Daemon ω :=
  ⟨fun _ => none, [], fun _ => none, fun _ => false, fun _ => .idle, 1, fun _ => 0,
    ⟨1, fun _ => none, fun _ => none, fun _ => none, fun _ => none, fun _ => 0, fun _ => 0⟩⟩

inductive Event (ω : Type) where
  | networkOpen
  | networkDup (node : ℕ)
  | networkClose (w : ω) (node : ℕ)
  /-- A request of process `pid` gets to a worker. -/
  | request (w : ω) (req : Req) (node pid : ℕ)
  /-- The next step of a worker; `ok` is what the stack answers to `SOCK_OPEN` and `SOCK_ACCEPT`. -/
  | run (w : ω) (ok : Bool)

namespace Daemon
variable {ω : Type} [DecidableEq ω] (s : Daemon ω) (w : ω)

def goto (pc : Pc) : Daemon ω := { s with pc := Function.update s.pc w pc }

def setTask (n : ℕ) (t : Task) : Daemon ω := { s with task := Function.update s.task n (some t) }

/-! ### The stack's slots -/

/-- The slot holds the very socket. -/
def Holds (r : Ref) : Prop := s.used r.id = true ∧ s.life r.id = r.life

instance (r : Ref) : Decidable (s.Holds r) := inferInstanceAs (Decidable (_ ∧ _))

/-- The socket that `sock_get` finds under an id. -/
def sockGet (id : ℤ) : Option ℕ := if inTable id ∧ s.used id = true then some (s.life id) else none

/-- The slot that `sock_alloc` finds. -/
def freeSlot : Option ℤ := ((List.range socksMax).find? fun k : ℕ => s.used k = false).map fun k : ℕ => (k : ℤ)

/-- `sock_alloc` takes a slot. -/
def take (k : ℤ) : Daemon ω :=
  { s with used := Function.update s.used k true, life := Function.update s.life k s.past.lives,
           past := { s.past with lives := s.past.lives + 1 } }

/-- `sock_open` for a request on node `n`: the id, or a negative error. -/
def sockOpen (ok : Bool) (n : ℕ) : Daemon ω × Ref :=
  match if ok then s.freeSlot else none with
  | some k =>
    let s' := s.take k
    ({ s' with past := { s'.past with opened := Function.update s.past.opened s.past.lives (some n) } },
      ⟨k, s.past.lives⟩)
  | none => (s, .unbound)

/-- `sock_accept` for process `pid`: the new id goes to the client and is bound to no task. -/
def sockAccept (ok : Bool) (pid : ℕ) (sock : Ref) : Daemon ω :=
  match if ok ∧ (s.sockGet sock.id).isSome then s.freeSlot else none with
  | some k =>
    let s' := s.take k
    { s' with past := { s'.past with accepted := Function.update s.past.accepted s.past.lives (some pid) } }
  | none => s

/-- `sock_close`; a call for an id outside the table returns at once. -/
def sockClose (r : Ref) : Daemon ω :=
  if inTable r.id then
    { s with used := Function.update s.used r.id false,
             past := { s.past with closes := Function.update s.past.closes r.life (s.past.closes r.life + 1) } }
  else s

/-! ### The tasks -/

/-- `task_find_live_by_node`. -/
def findLive (n : ℕ) : Option Task := if n ≠ 0 ∧ n ∈ s.list then s.task n else none

/-- The map without the entry of task `n` with socket `id`. -/
def unmap (n : ℕ) (id : ℤ) : ℤ → Option ℕ :=
  if inTable id ∧ s.sockToTask id = some n then Function.update s.sockToTask id none else s.sockToTask

/-- `task_bind_sock`. -/
def bindSock (n : ℕ) (t : Task) (r : Ref) : Daemon ω :=
  { s with sockToTask := if inTable r.id then Function.update (s.unmap n t.sock.id) r.id (some n) else s.unmap n t.sock.id,
           task := Function.update s.task n (some { t with sock := r }),
           past := { s.past with bound := if inTable r.id then Function.update s.past.bound r.life (some n) else s.past.bound } }

/-- `task_detach_sock`; the caller gets `t.sock`. -/
def detachSock (n : ℕ) (t : Task) : Daemon ω :=
  { s with sockToTask := s.unmap n t.sock.id, task := Function.update s.task n (some { t with sock := .unbound }) }

/-- The id in the payload of a `SOCK_LINK`. -/
def payload (id : ℤ) : Ref := if inTable id then ⟨id, s.life id⟩ else ⟨id, 0⟩

/-- `SOCK_LINK`: the id is not looked at. -/
def sockLink (n pid : ℕ) (t : Task) (id : ℤ) : Daemon ω :=
  let s' := s.bindSock n t (s.payload id)
  let linked := if inTable id then Function.update s.past.linked (s.life id) (some (n, pid)) else s.past.linked
  { s' with past := { s'.past with linked := linked } }

/-- `task_end_op`. -/
def endOp (n : ℕ) (t : Task) : Daemon ω :=
  let t' := { t with inflight := t.inflight - 1 }
  (s.setTask n t').goto w (if t'.dead = true ∧ t'.inflight = 0 then .finish n t'.finSock else .idle)

/-- The second look of `release_task`: the task is handed to the last operation out, if there is any. -/
def releaseTask (n : ℕ) (t : Task) (fin : Ref) : Daemon ω :=
  if 0 < t.inflight then (s.setTask n { t with dead := true, finSock := fin }).goto w .idle
  else s.goto w (.finish n fin)

/-- `network_close` up to `release_task`. -/
def networkClose (n : ℕ) (t : Task) : Daemon ω :=
  if t.refs = 1 then (s.setTask n { t with refs := 0, closing := true }).goto w (.release n)
  else s.setTask n { t with refs := t.refs - 1 }

/-- The next step of a worker. -/
def run (ok : Bool) : Option (Daemon ω) :=
  match s.pc w with
  | .idle => none
  | .serving .use n _ sock => some (s.goto w (.ending n sock))
  | .serving .sockOpen n _ sock => some ((s.sockOpen ok n).1.goto w (.opened n sock (s.sockOpen ok n).2))
  | .opened n sock got => (s.task n).map fun t => (s.bindSock n t got).goto w (.ending n sock)
  | .serving (.sockLink id) n pid sock => (s.task n).map fun t => (s.sockLink n pid t id).goto w (.ending n sock)
  | .serving .sockAccept n pid sock => some ((s.sockAccept ok pid sock).goto w (.ending n sock))
  | .serving .sockClose n _ sock => (s.task n).map fun t =>
    (s.detachSock n t).goto w (if t.sock.id < 0 then .ending n sock else .draining n t.sock 0)
  | .draining n old i => (s.task n).map fun t =>
    s.goto w (if i < drainPollMax ∧ 1 < t.inflight then .draining n old (i + 1) else .closing n old)
  | .closing n old => some ((s.sockClose old).goto w (.ending n .unbound))
  | .ending n _ => (s.task n).map (s.endOp w n)
  | .release n => some ({ s with list := s.list.erase n }.goto w (.unlisted n))
  | .unlisted n => (s.task n).map fun t => (s.detachSock n t).goto w (.waiting n t.sock 0)
  | .waiting n fin i => (s.task n).map fun t =>
    s.goto w (if i < drainPollMax ∧ 0 < t.inflight then .waiting n fin (i + 1) else .recheck n fin)
  | .recheck n fin => (s.task n).map fun t => s.releaseTask w n t fin
  | .finish n fin => some ((s.sockClose fin).goto w (.destroy n))
  | .destroy n =>
    some ({ s with task := Function.update s.task n none,
                   past := { s.past with freed := Function.update s.past.freed n (s.past.freed n + 1) } }.goto w .idle)

def step : Event ω → Option (Daemon ω)
  | .networkOpen =>
    some { s with task := Function.update s.task s.nodes (some ⟨.unbound, 1, 0, .unbound, false, false⟩),
                  list := s.list ++ [s.nodes], nodes := s.nodes + 1 }
  | .networkDup n =>
    match s.findLive n with
    | some t => some (if t.closing = true then s else s.setTask n { t with refs := t.refs + 1 })
    | none => some s
  | .networkClose w n =>
    if s.pc w = .idle then
      match s.findLive n with
      | some t => some (if 0 < t.refs then s.networkClose w n t else s)
      | none => some s
    else none
  | .request w req n pid =>
    if s.pc w = .idle then
      match s.findLive n with
      | some t =>
        some (if t.closing = true then s
              else (s.setTask n { t with inflight := t.inflight + 1 }).goto w (.serving req n pid t.sock))
      | none => some s
    else none
  | .run w ok => s.run w ok

end Daemon

end EwokOS.Net.Netd
