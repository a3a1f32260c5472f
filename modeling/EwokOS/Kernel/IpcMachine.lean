import EwokOS.Kernel.Ipc
import EwokOS.Schemes.Ledger

/-! The IPC system calls as a machine (`proc_ipc_*` of `kernel/src/ipc.c`, and `proc_ipc_timeout`,
    `proc_terminate` of `kernel/src/proc.c` as far as they touch task slots).

    A step is one system call, one firing of the watchdog or the birth or death of a task. What the
    scheduler and the pool bookkeeping decide is an argument of the operation: which idle worker a
    request is given to, when the watchdog fires, and what `proc_cap_check_ep` answers. The tasks
    carry what the IPC code reads of them; `owner` is the process whose address space they run in.

    `led` is not kernel state. It numbers the accepted requests and records what became of each, by
    looking at which slots a step gives up. -/

namespace EwokOS.Kernel.Ipc

open Schemes (Ledger)

/-- How a request leaves its slot. -/
inductive Fate where | ended | aborted | timedOut | cleared
  deriving DecidableEq, Repr

structure Task where
  alive : Bool
  uuid : ℕ
  type : TaskType
  owner : ℤ
  intr : IntrState
  ipcRes : IpcRes
  intrRes : IpcRes
  /-- The slot of the owner's server this worker thread is serving. -/
  ipcTask : Option ℕ

/-- A `proto_t` argument of a system call: whether `user_proto_ok` takes it, and its payload. -/
structure UserProto where
  ok : Bool
  data : Option (List UInt8)
  deriving DecidableEq, Repr

def ipcErrorRetry : ℤ := -1
def ipcErrorSelf : ℤ := -2
def ipcErrorNoReady : ℤ := -3

namespace Task
variable (t : Task)

def dead : Task := ⟨false, 0, .proc, 0, .idle, .clear, .clear, none⟩

/-- `proc_cur_ipc_res` picks the reply slot of the interrupt handler. -/
def inHandler : Bool := t.type == .proc && t.intr == .working

/-- `proc_ipc_client_res`. -/
def clientRes (intr : Bool) : IpcRes := if intr then t.intrRes else t.ipcRes

def setClientRes (intr : Bool) (r : IpcRes) : Task :=
  if intr then { t with intrRes := r } else { t with ipcRes := r }

end Task

structure Machine where
  ipcUid : ℕ
  task : ℤ → Task
  server : ℤ → IpcServer
  /-- The process has called `proc_ipc_setup`. -/
  configured : ℤ → Bool
  led : Ledger (ℤ × ℕ) Fate

namespace Machine
variable (m : Machine)

def setTask (p : ℤ) (t : Task) : Machine := { m with task := Function.update m.task p t }

def setServer (p : ℤ) (sv : IpcServer) : Machine :=
  { m with server := Function.update m.server p sv }

/-- The slots a change of record gives up. -/
def freedSlots (sv sv' : IpcServer) : List ℕ :=
  (List.range ipcCtxMax).filter fun i => (sv.tasks i).occupied && !(sv'.tasks i).occupied

/-- Storing a record from which requests were removed, with their fate noted. -/
def release (f : Fate) (p : ℤ) (sv : IpcServer) : Machine :=
  { m.setServer p sv with
    led := ((freedSlots (m.server p) sv).map fun i => (p, i)).foldl (Ledger.settle f) m.led }

/-- `proc_get_proc`. -/
def procGetProc (pid : ℤ) : Option ℤ :=
  let t := m.task pid
  if !t.alive then none
  else match t.type with
    | .proc => some pid
    | .thread => if (m.task t.owner).alive && (m.task t.owner).type == .proc then some t.owner else none

/-- `proc_ipc_get_client`. -/
def procIpcGetClient (t : IpcTask) : Option ℤ :=
  if t.clientPid < 0 then none
  else if !(m.task t.clientPid).alive then none
  else if t.clientUuid ≠ 0 ∧ (m.task t.clientPid).uuid ≠ t.clientUuid then none
  else some t.clientPid

/-- The client's reply slot is reset if it still belongs to request `t` and `drop` allows it. -/
def dropReply (t : IpcTask) (drop : IpcRes → Bool) : Machine :=
  match m.procIpcGetClient t with
  | none => m
  | some c =>
    let res := (m.task c).clientRes t.clientIntr
    if res.uid = t.uid ∧ drop res then
      m.setTask c ((m.task c).setClientRes t.clientIntr .clear)
    else m

/-- The handler of request `t` in slot `slot` of `p` forgets it, if it is still its handler. -/
def detach (p : ℤ) (slot : ℕ) (t : IpcTask) : Machine :=
  let w := m.task t.handlerPid
  if w.alive ∧ w.uuid = t.handlerUuid ∧ w.owner = p ∧ w.ipcTask = some slot then
    m.setTask t.handlerPid { w with ipcTask := none }
  else m

/-- `proc_ipc_task_abort`. -/
def procIpcTaskAbort (p : ℤ) (slot : ℕ) : Machine :=
  let sv := m.server p
  let t := sv.tasks slot
  if sv.abortable slot then
    ((m.detach p slot t).dropReply t fun _ => true).release .aborted p (sv.procIpcTaskAbort slot)
  else m

/-- One turn of the loop of `proc_ipc_clear`, less the reset of the slot. -/
def clearStep (p : ℤ) (m : Machine) (i : ℕ) : Machine :=
  let t := (m.server p).tasks i
  if t.uid = 0 ∨ t.state = .idle then m
  else
    let m := m.detach p i t
    if t.callId &&& ipcNonReturn = 0 then m.dropReply t fun res => res.state != .ret else m

/-- `proc_ipc_clear`. -/
def procIpcClear (p : ℤ) : Machine :=
  ((List.range ipcCtxMax).foldl (clearStep p) m).release .cleared p (m.server p).procIpcClear

/-- `proc_ipc_timeout`. -/
def procIpcTimeout (p : ℤ) : Machine :=
  let sv := m.server p
  match sv.ipcTaskqHead with
  | none => m
  | some slot =>
    let t := sv.tasks slot
    if t.state = .idle then m
    else
      let m := if 0 < t.clientPid then m.dropReply t fun _ => true else m
      m.release .timedOut p (sv.procIpcClose slot)

/-- The checks `proc_ipc_call` makes before it asks for a slot: the server, or the error. -/
def callTarget (client servPid : ℤ) (arg : UserProto) (cap : Bool) : Except ℤ ℤ :=
  if !arg.ok then .error ipcErrorNoReady
  else match m.procGetProc servPid with
    | none => .error ipcErrorNoReady
    | some p =>
      let sv := m.server p
      if client = p then .error ipcErrorSelf
      else if sv.entry = 0 then .error ipcErrorNoReady
      else if (m.task client).owner = p then .error ipcErrorSelf
      else if sv.disabled then .error ipcErrorRetry
      else if sv.flags &&& ipcCapCheck ≠ 0 ∧ cap = false then .error ipcErrorNoReady
      else if sv.multiTask = false ∧ (m.task p).intr ≠ .idle then .error ipcErrorRetry
      else .ok p

/-- `ipc_pool_assign`: the worker the pool would give, unless the requester must wait its turn. -/
def ipcPoolAssign (p : ℤ) (slot : ℕ) (pick : Option ℤ) : Option ℤ :=
  let sv := m.server p
  let t := sv.tasks slot
  if sv.flags &&& ipcMultiCore = 0 ∧
      sv.ipcServerClientBusyLocked t.clientPid t.clientUuid (some slot) = true then none
  else pick.filter fun w => (m.task w).alive && (m.task w).type == .thread &&
    (m.task w).owner == p && (m.task w).ipcTask == none

/-- The next request number. -/
def nextUid : ℕ := (m.ipcUid + 1) % uidMod

/-- The request as the client's call describes it. -/
def requestOf (client : ℤ) (callId : BitVec 32) (arg : UserProto) : IpcTask :=
  IpcServer.request m.nextUid client (m.task client).uuid (m.task client).inHandler callId arg.data

/-- The state in which a slot has been taken and the client's reply slot marked. -/
def grabbed (client p : ℤ) (sv : IpcServer) : Machine :=
  let c := m.task client
  { (m.setServer p sv).setTask client
      (c.setClientRes c.inHandler { c.clientRes c.inHandler with state := .busy }) with
    ipcUid := m.nextUid }

/-- `ipc_pool_bind_locked`, and the request is accepted. -/
def bind (p : ℤ) (slot : ℕ) (w : ℤ) : Machine :=
  { (m.setServer p ((m.server p).bind slot w (m.task w).uuid)).setTask w
      { m.task w with ipcTask := some slot } with
    led := m.led.enroll (p, slot) }

/-- `proc_ipc_call`, with the result it leaves in `gpr[0]`. A pool request that finds no worker
    gives its slot back at once; the caller retries with a new call. -/
def procIpcCall (client servPid : ℤ) (callId : BitVec 32) (arg : UserProto) (cap : Bool)
    (pick : Option ℤ) : ℤ × Machine :=
  match m.callTarget client servPid arg cap with
  | .error e => (e, m)
  | .ok p =>
    match (m.server p).procIpcReq (m.requestOf client callId arg) with
    | none => (ipcErrorRetry, m)
    | some (slot, sv) =>
      let m' := m.grabbed client p sv
      if sv.multiTask then
        match m'.ipcPoolAssign p slot pick with
        | some w => (m.nextUid, m'.bind p slot w)
        | none => (ipcErrorRetry, m'.setServer p (sv.procIpcClose slot))
      else (m.nextUid, { m' with led := m'.led.enroll (p, slot) })

/-- `proc_ipc_end`. -/
def procIpcEnd (pid : ℤ) : Machine :=
  match m.procGetProc pid with
  | none => m
  | some p =>
    let sv := m.server p
    if sv.entry = 0 then m
    else if sv.multiTask then
      let w := m.task pid
      match w.ipcTask with
      | none => m
      | some slot =>
        (m.setTask pid { w with ipcTask := none }).release .ended p
          (sv.procIpcFinishTask pid w.uuid slot)
    else match sv.ipcTaskqHead with
      | none => m
      | some slot => m.release .ended p (sv.procIpcClose slot)

/-- `proc_ipc_serving_task`: the slot this task may answer for request `uid`. -/
def procIpcServingTask (pid : ℤ) (uid : ℕ) : Option (ℤ × ℕ) :=
  if uid = 0 then none
  else match m.procGetProc pid with
    | none => none
    | some p =>
      let sv := m.server p
      ((if sv.multiTask then (m.task pid).ipcTask else sv.ipcTaskqHead).filter fun slot =>
        (sv.tasks slot).uid == uid && (sv.tasks slot).state == .busy).map fun slot => (p, slot)

/-- `proc_ipc_set_return`. -/
def procIpcSetReturn (pid : ℤ) (uid : ℕ) (data : UserProto) : Machine :=
  if !data.ok || (m.server (m.task pid).owner).entry == 0 then m
  else match m.procIpcServingTask pid uid with
    | none => m
    | some (p, slot) =>
      let t := (m.server p).tasks slot
      if t.callId &&& ipcNonReturn ≠ 0 then m
      else match m.procIpcGetClient t with
        | none => m
        | some c =>
          let res := (m.task c).clientRes t.clientIntr
          m.setTask c ((m.task c).setClientRes t.clientIntr
            { res with state := .ret, uid := uid, data := data.data.getD res.data })

/-- `proc_ipc_get_return`: the result in `gpr[0]` (-1 means blocked, retry) and the data handed to a
    buffer of `room` bytes. -/
def procIpcGetReturn (pid servPid : ℤ) (uid : ℕ) (ok : Bool) (room : Option ℕ) :
    ℤ × List UInt8 × Machine :=
  let c := m.task pid
  let res := c.clientRes c.inHandler
  if uid = 0 ∨ ok = false then (-2, [], m)
  else if res.state ≠ .ret then
    match (m.procGetProc servPid).bind fun p =>
        ((m.server p).procIpcFindTask uid).map fun slot => (m.server p).tasks slot with
    | none => (-2, [], m)
    | some t =>
      if m.procIpcGetClient t ≠ some pid then (-2, [], m)
      else if t.callId &&& ipcNonReturn = 0 then (-1, [], m)
      else (0, [], m)
  else if res.uid ≠ uid then (-2, [], m)
  else if room.any fun n => decide (n < res.data.length) then (res.data.length, [], m)
  else (0, if room.isSome then res.data else [],
    m.setTask pid (c.setClientRes c.inHandler .clear))

/-- `proc_ipc_get_arg`: the result in `gpr[0]`, the caller and call id, and the argument copied into
    a buffer of `room` bytes. -/
def procIpcGetArg (pid : ℤ) (uid : ℕ) (ok : Bool) (room : Option ℕ) :
    ℤ × Option (ℤ × BitVec 32) × List UInt8 × Machine :=
  if (m.server (m.task pid).owner).entry = 0 ∨ ok = false then (-1, none, [], m)
  else match m.procIpcServingTask pid uid with
    | none => (-1, none, [], m)
    | some (p, slot) =>
      let t := (m.server p).tasks slot
      let info := some (t.clientPid, t.callId)
      match room with
      | none => (0, info, [], m)
      | some n =>
        if t.argRet.length ≤ n then (0, info, t.argRet, m) else (t.argRet.length, info, [], m)

/-- `proc_ipc_disable`: refused while a request is being served. -/
def procIpcDisable (pid : ℤ) : Option Machine :=
  (m.procGetProc pid).map fun p =>
    if 0 < (m.server p).taskNum then m else m.setServer p { m.server p with disabled := true }

/-- `proc_ipc_enable`. -/
def procIpcEnable (pid : ℤ) : Option Machine :=
  (m.procGetProc pid).map fun p => m.setServer p { m.server p with disabled := false }

/-- The threads of an exiting process end with it. -/
def killThreads (p : ℤ) : Machine :=
  { m with task := fun q => if (m.task q).type = .thread ∧ (m.task q).owner = p then
                              { m.task q with alive := false, uuid := 0, ipcTask := none }
                            else m.task q }

/-- `proc_terminate`: a dying worker aborts its request, a dying server clears all of them. -/
def procTerminate (pid : ℤ) : Machine :=
  let m' := match (m.task pid).type with
    | .proc => (m.killThreads pid).procIpcClear pid
    | .thread => match (m.task pid).ipcTask, m.procGetProc pid with
      | some slot, some p => m.procIpcTaskAbort p slot
      | _, _ => m
  m'.setTask pid { m'.task pid with alive := false, uuid := 0, ipcTask := none }

/-- A new task in a free slot of the task table; a process gets a zeroed server record. -/
def create (pid : ℤ) (type : TaskType) (owner : ℤ) (uuid : ℕ) : Machine :=
  match type with
  | .proc => { (m.setTask pid ⟨true, uuid, .proc, pid, .idle, .clear, .clear, none⟩).setServer pid
                 IpcServer.zero with configured := Function.update m.configured pid false }
  | .thread => m.setTask pid ⟨true, uuid, .thread, owner, .idle, .clear, .clear, none⟩

end Machine

/-- One step of the machine. -/
inductive Op where
  | create (pid : ℤ) (type : TaskType) (owner : ℤ) (uuid : ℕ)
  | terminate (pid : ℤ)
  /-- The interrupt code moves a process to another interrupt state. -/
  | interrupt (pid : ℤ) (state : IntrState)
  | setup (pid : ℤ) (entry extraData : ℕ) (flags : BitVec 32)
  | call (pid servPid : ℤ) (callId : BitVec 32) (arg : UserProto) (cap : Bool) (pick : Option ℤ)
  | getArg (pid : ℤ) (uid : ℕ) (ok : Bool) (room : Option ℕ)
  | setReturn (pid : ℤ) (uid : ℕ) (data : UserProto)
  | getReturn (pid servPid : ℤ) (uid : ℕ) (ok : Bool) (room : Option ℕ)
  | finish (pid : ℤ)
  | disable (pid : ℤ)
  | enable (pid : ℤ)
  /-- The watchdog of a pool server aborts the request in a slot. -/
  | abort (servPid : ℤ) (slot : ℕ)
  /-- The watchdog of a single-task server fires. -/
  | timeout (servPid : ℤ)

/-- No task has been created yet. -/
def boot : Machine := ⟨0, fun _ => .dead, fun _ => .zero, fun _ => false, .fresh⟩

/-- `none`: the caller does not exist (or, for a second `setup`, the mode is already fixed). -/
def step (m : Machine) : Op → Option Machine
  | .create pid type owner uuid =>
    if (m.task pid).alive = false ∧ (type = .thread → m.procGetProc owner = some owner) then
      some (m.create pid type owner uuid)
    else none
  | .terminate pid => if (m.task pid).alive then some (m.procTerminate pid) else none
  | .interrupt pid state =>
    if (m.task pid).alive then some (m.setTask pid { m.task pid with intr := state }) else none
  | .setup pid entry extraData flags =>
    (m.procGetProc pid).bind fun p =>
      if m.configured p then none
      else some { m.setServer p ((m.server p).procIpcSetup entry extraData flags) with
                  configured := Function.update m.configured p true }
  | .call pid servPid callId arg cap pick =>
    if (m.task pid).alive then some (m.procIpcCall pid servPid callId arg cap pick).2 else none
  | .getArg pid uid ok room =>
    if (m.task pid).alive then some (m.procIpcGetArg pid uid ok room).2.2.2 else none
  | .setReturn pid uid data =>
    if (m.task pid).alive then some (m.procIpcSetReturn pid uid data) else none
  | .getReturn pid servPid uid ok room =>
    if (m.task pid).alive then some (m.procIpcGetReturn pid servPid uid ok room).2.2 else none
  | .finish pid => if (m.task pid).alive then some (m.procIpcEnd pid) else none
  | .disable pid => m.procIpcDisable pid
  | .enable pid => m.procIpcEnable pid
  | .abort servPid slot =>
    if (m.task servPid).alive ∧ slot < ipcCtxMax then some (m.procIpcTaskAbort servPid slot)
    else none
  | .timeout servPid =>
    if (m.task servPid).alive ∧ (m.server servPid).multiTask = false then
      some (m.procIpcTimeout servPid)
    else none

end EwokOS.Kernel.Ipc
