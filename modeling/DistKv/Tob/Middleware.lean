import DistKv.Lib.Decimal
import DistKv.Lib.Transition
import DistKv.Tob.Queue
import Mathlib.Logic.Function.Basic

/-!
# The broadcast middleware (`client_handle.c`)

`n` single-threaded processes, each with its own clock `lc` and queue,
handle one connection at a time. A handler changes the process's own state
at once and leaves the connections it opens and the file write it makes as
`pending` actions, which are performed one by one before the process accepts
again; between them the other processes move freely. A connection that was
opened waits in `net`, in the order of opening, until its recipient accepts it.

Messages carry the fields that the recipient decodes: the fixed-width
decimal fields of a BROAD are `Decimal.cut` to their width. Since
`total_broadcast` sends `40 + buf_len` bytes, of which 45 are header and
metadata, the last five bytes of a body are never sent, and the recipient of
a body of at most five bytes waits in `recv` for ever (`Out.hang`).

`encode_broadcast_buffer` stores `48 + buf_len` bytes in the block of
`40 + buf_len`. Where `malloc` leaves less than that behind them, the
process stores over the heap (`Out.overrun`): what it does then is undefined,
and here it does nothing any more.

`mid`, `issued` and `trace` are history variables: no handler reads them.
-/

namespace DistKv.Tob

open BlockHeap

variable {n : Nat}

/-- `BASEPORT`. -/
def basePort : Nat := 10000

/-- The `n` processes the server forks: the kernel gives distinct positive pids
(far below `10 ^ 8`), and every listening port is a TCP port. A block of `size`
bytes from `malloc` has `usable size`. -/
structure Cfg (n : Nat) where
  pid : Fin n → Nat
  pid_injective : Function.Injective pid
  pid_pos : ∀ i, 0 < pid i
  pid_lt : ∀ i, pid i < 10 ^ 8
  ports : basePort + n ≤ 2 ^ 16
  usable : Nat → Nat
  le_usable : ∀ size, size ≤ usable size

/-- The BROAD of a message of `bufLen` bytes, which takes `48 + bufLen` with its
terminator, stays in the block that `total_broadcast` allocates for it. -/
def Cfg.Fits (cfg : Cfg n) (bufLen : Nat) : Prop := 48 + bufLen ≤ cfg.usable (40 + bufLen)

instance (cfg : Cfg n) (bufLen : Nat) : Decidable (cfg.Fits bufLen) :=
  inferInstanceAs (Decidable (_ ≤ _))

/-- The usable bytes of a block of a common `malloc`: eight of each multiple of 16 are
its own, and no block has less than 24. -/
def usableSize (size : Nat) : Nat := max 24 ((size + 23) / 16 * 16 - 8)

theorem le_usableSize (size : Nat) : size ≤ usableSize size := by
  unfold usableSize
  omega

/-- Two processes are some, so that `0` is one of them. -/
instance two_neZero : NeZero 2 :=
  ⟨two_ne_zero⟩

theorem ports_two : basePort + 2 ≤ 2 ^ 16 := by decide

/-- The port process `i` listens on. -/
def port (i : Fin n) : Nat := basePort + i

/-- What travels on a connection, as its recipient decodes it. -/
inductive Msg
  | issue (message : Bytes)
  | broad (uid : UInt32) (pid port : Nat) (lc : UInt32) (len : Nat) (body : Bytes)
  | ack (pid : Nat) (uid : UInt32)
  | ready (uid : UInt32)
deriving DecidableEq, Repr

/-- A connection: who opened it (`none` is a client), the port it was opened
to, and what it carries. -/
structure Packet (n : Nat) where
  src : Option (Fin n)
  dst : Nat
  msg : Msg
  mid : Nat
deriving DecidableEq, Repr

/-- What a handler still has to do before the process accepts again: open a
connection, write to the shared file, wait for bytes that never come, or encode
a message into a buffer that it does not fit. -/
inductive Out (n : Nat)
  | send (pk : Packet n)
  | write (mid : Nat) (buffer : Bytes)
  | hang (mid : Nat)
  | overrun (mid : Nat)
deriving DecidableEq, Repr

structure Proc (n : Nat) where
  lc : UInt32
  queue : Queue
  pending : List (Out n)
deriving DecidableEq, Repr

/-- What happened, in the order it happened. `head` is the message at the
head of the process's queue at that moment, `hit` the message whose node the
handler found by uid, `clock` the process's `lc` after the event, `bare` that
the handler leaves a head that was never acknowledged. A `swallowed` node was
stored through a dangling `tail`. -/
inductive Event (n : Nat)
  | issued (p : Fin n) (m : Nat) (clock : UInt32)
  | broadcast (p : Fin n) (m : Nat) (clock : UInt32)
  | received (p : Fin n) (m : Nat) (clock : UInt32)
  | swallowed (p : Fin n) (m : Nat)
  | flagged (p : Fin n) (m : Nat)
  | acked (p : Fin n) (m : Nat) (head : Option Nat)
  | gotAck (p : Fin n) (src : Option (Fin n)) (m : Nat) (hit : Option Nat)
  | marked (p : Fin n) (m : Nat) (head : Option Nat) (clock : UInt32)
  | wrote (p : Fin n) (m : Nat) (buffer : Bytes)
  | gotReady (p : Fin n) (m : Nat) (hit head : Option Nat) (bare : Bool)
  | lost (pk : Packet n)
deriving DecidableEq, Repr

/-- A message that was issued: its issuer, the issuer's clock at the ISSUE,
the uid, the timestamp field its BROAD carries, and its length. -/
structure Issued (n : Nat) where
  owner : Fin n
  lc : UInt32
  uid : UInt32
  stamp : UInt32
  bufLen : Nat
deriving DecidableEq, Repr

structure State (n : Nat) where
  procs : Fin n → Proc n
  net : List (Packet n)
  issued : List (Issued n)
  trace : List (Event n)

/-- The message at the head of a queue. -/
def Queue.headMid (q : Queue) : Option Nat := q.nodes.head?.map Node.mid

/-- The head was not acknowledged. -/
def bareHead (nodes : List Node) : Bool := nodes.head?.any fun x => !x.ackFlg

/-! ## The handlers -/

/-- `generate_uid`: `pid << 12 | lc`. -/
def generateUid (pid : Nat) (lc : UInt32) : UInt32 := UInt32.ofNat pid <<< 12 ||| lc

/-- The timestamp that is read back from the four-digit LC field. -/
def lcField (lc : UInt32) : UInt32 := UInt32.ofNat (Decimal.cut 4 lc.toNat)

/-- The BROAD message of `encode_broadcast_buffer`, as far as it is sent. -/
def encodeBroadcastBuffer (node : Node) (lc : UInt32) : Msg :=
  .broad node.uid (Decimal.cut 8 node.pid) (Decimal.cut 8 node.portNum) (lcField lc)
    (Decimal.cut 6 node.bufLen) (node.buffer.take (node.bufLen - 5))

/-- One connection to each of the ports `BASEPORT .. BASEPORT + nprocs - 1`. -/
def sendAll (p : Fin n) (node : Node) (msg : Msg) : List (Out n) :=
  (List.range node.nprocs).map fun i => .send ⟨some p, basePort + i, msg, node.mid⟩

/-- The bytes that `encode_broadcast_buffer` stores behind the block, if any. -/
def overruns (cfg : Cfg n) (node : Node) : List (Out n) :=
  if cfg.Fits node.bufLen then [] else [.overrun node.mid]

/-- `total_broadcast`: the clock it leaves, and what it does: it encodes the message
and opens the connections. -/
def totalBroadcast (cfg : Cfg n) (p : Fin n) (node : Node) (lc : UInt32) :
    UInt32 × List (Out n) :=
  (lc + 1, overruns cfg node ++ sendAll p node (encodeBroadcastBuffer node (lc + 1)))

/-- `broadcast_ready_message`. -/
def broadcastReadyMessage (p : Fin n) (node : Node) (lc : UInt32) : UInt32 × List (Out n) :=
  (lc + 1, sendAll p node (.ready node.uid))

/-- `send_p2p_ack(port, pid, uid)`. -/
def sendP2pAck (p : Fin n) (node : Node) : Out n :=
  .send ⟨some p, node.portNum, .ack node.pid node.uid, node.mid⟩

/-- What a handler leaves: the process, its history, and the message it issued. -/
structure Outcome (n : Nat) where
  proc : Proc n
  events : List (Event n) := []
  issued : Option (Issued n) := none

/-- `handle_issue`. A terminator is added unless the last byte is one. -/
def handleIssue (cfg : Cfg n) (p : Fin n) (mid : Nat) (proc : Proc n) (message : Bytes) :
    Outcome n :=
  let lc := proc.lc + 1
  let buffer := if message.getLast? = some 0 then message else message ++ [0]
  let uid := generateUid (cfg.pid p) lc
  let node := createNode (cfg.pid p) (port p) false 0 buffer buffer.length lc uid n mid
  let (lc', outs) := totalBroadcast cfg p node lc
  { proc := { proc with lc := lc', pending := outs }
    events := [.issued p mid lc, .broadcast p mid lc']
    issued := some ⟨p, lc, uid, lcField lc', buffer.length⟩ }

/-- `check_and_ack_head`: sort, then acknowledge the head once. -/
def checkAndAckHead (p : Fin n) (q : Queue) : Option (Queue × List (Out n) × List (Event n)) :=
  q.orderQueue.bind fun q =>
    match q.head with
    | none => some (q, [], [])
    | some a =>
        (load q.heap a).map fun c =>
          if c.val.ackFlg = false then
            (q.store a (fun x => { x with ackFlg := true }), [sendP2pAck p c.val],
              [.flagged p c.val.mid])
          else (q, [], [])

/-- `handle_broadcast`. One `recv` delivers the first `got` bytes of the body;
the rest of the array is what the stack held. -/
def handleBroadcast (p : Fin n) (mid : Nat) (proc : Proc n) (uid : UInt32) (pid port : Nat)
    (nodeLc : UInt32) (msgLen : Nat) (body : Bytes) (got : Nat) (stack : Bytes) :
    Option (Outcome n) :=
  let lcCpy := proc.lc + 1
  if body = [] then
    some { proc := { proc with lc := lcCpy, pending := [.hang mid] } }
  else if got = 0 ∨ body.length < got then none
  else
    let lc := if lcCpy < nodeLc then nodeLc else lcCpy
    let newNode := createNode pid port false 0 (body.take got ++ stack) msgLen nodeLc uid n mid
    let q := (proc.queue.malloc newNode).enqueue proc.queue.heap.length
    (checkAndAckHead p q).map fun r =>
      { proc := { lc := lc, queue := r.1, pending := r.2.1 }
        events := .received p mid lc ::
          (if proc.queue.wedged then [.swallowed p mid] else []) ++ r.2.2 }

/-- `handle_ack`. -/
def handleAck (p : Fin n) (src : Option (Fin n)) (mid : Nat) (proc : Proc n) (uid : UInt32) :
    Option (Outcome n) :=
  (proc.queue.findNode uid).bind fun found =>
    match found with
    | none => some { proc := proc, events := [.gotAck p src mid none] }
    | some a =>
        let q := proc.queue.store a (fun x => { x with ackCount := x.ackCount + 1 })
        (load q.heap a).map fun c =>
          if c.val.ackCount = c.val.nprocs then
            let (lc, outs) := broadcastReadyMessage p c.val proc.lc
            { proc := { lc := lc, queue := q, pending := outs ++ [.write c.val.mid c.val.buffer] }
              events := [.gotAck p src mid (some c.val.mid), .marked p c.val.mid q.headMid lc] }
          else
            { proc := { proc with queue := q }
              events := [.gotAck p src mid (some c.val.mid)] }

/-- `handle_ready`. -/
def handleReady (p : Fin n) (mid : Nat) (proc : Proc n) (uid : UInt32) : Option (Outcome n) :=
  (proc.queue.dequeue uid).map fun q =>
    { proc := { proc with queue := q }
      events := [.gotReady p mid ((proc.queue.nodes.find? (fun x => x.uid = uid)).map Node.mid)
        proc.queue.headMid (bareHead q.nodes)] }

/-- `handle_client`: dispatch on the header. -/
def handleClient (cfg : Cfg n) (p : Fin n) (fresh : Nat) (proc : Proc n) (pk : Packet n)
    (got : Nat) (stack : Bytes) : Option (Outcome n) :=
  match pk.msg with
  | .issue message => some (handleIssue cfg p fresh proc message)
  | .broad uid pid port lc len body =>
      handleBroadcast p pk.mid proc uid pid port lc len body got stack
  | .ack _ uid => handleAck p pk.src pk.mid proc uid
  | .ready uid => handleReady p pk.mid proc uid

/-- The clock after a handler that returned on a failing `recv` or `malloc`
before it did anything else. -/
def abortedClock (lc : UInt32) : Msg → UInt32
  | .issue _ => lc + 1
  | .broad .. => lc + 1
  | .ack .. => lc
  | .ready _ => lc

/-! ## Runs -/

inductive Act (n : Nat)
  /-- a client connects to `p` and sends an ISSUE -/
  | client (p : Fin n) (message : Bytes)
  /-- `p` accepts the connection at position `k` and runs its handler -/
  | accept (p : Fin n) (k got : Nat) (stack : Bytes)
  /-- `p` performs the next action of the handler it runs -/
  | perform (p : Fin n)
  /-- `p` accepts the connection at position `k`, and the handler fails -/
  | abort (p : Fin n) (k : Nat)
  /-- a connection fails before it is handled -/
  | drop (k : Nat)
deriving DecidableEq, Repr

/-- Apply a handler's outcome at `p`. -/
def State.handled (s : State n) (p : Fin n) (k : Nat) (o : Outcome n) : State n :=
  { procs := Function.update s.procs p o.proc
    net := s.net.eraseIdx k
    issued := s.issued ++ o.issued.toList
    trace := s.trace ++ o.events }

/-- Perform the first pending action of `p`. -/
def State.performed (s : State n) (p : Fin n) : Out n → List (Out n) → Option (State n)
  | .send pk, rest =>
      some { s with
        procs := Function.update s.procs p { s.procs p with pending := rest }
        net := s.net ++ [pk]
        trace := s.trace ++ match pk.msg with
          | .ack .. => [.acked p pk.mid (s.procs p).queue.headMid]
          | _ => [] }
  | .write mid buffer, rest =>
      some { s with
        procs := Function.update s.procs p { s.procs p with pending := rest }
        trace := s.trace ++ [.wrote p mid buffer] }
  | .hang _, _ | .overrun _, _ => none

/-- Process `p` is idle and connection `k` is for it. -/
def State.offered (s : State n) (p : Fin n) (k : Nat) : Option (Packet n) :=
  match (s.procs p).pending, s.net[k]? with
  | [], some pk => if pk.dst = port p then some pk else none
  | _, _ => none

def step (cfg : Cfg n) (s : State n) : Act n → Option (State n)
  | .client p message => some { s with net := s.net ++ [⟨none, port p, .issue message, 0⟩] }
  | .accept p k got stack =>
      (s.offered p k).bind fun pk =>
        (handleClient cfg p s.issued.length (s.procs p) pk got stack).map (s.handled p k)
  | .perform p =>
      match (s.procs p).pending with
      | [] => none
      | out :: rest => s.performed p out rest
  | .abort p k =>
      (s.offered p k).map fun pk =>
        s.handled p k
          { proc := { s.procs p with lc := abortedClock (s.procs p).lc pk.msg }
            events := [.lost pk] }
  | .drop k =>
      match s.net[k]? with
      | none => none
      | some pk => some { s with net := s.net.eraseIdx k, trace := s.trace ++ [.lost pk] }

def init : State n :=
  { procs := fun _ => { lc := 0, queue := Queue.empty, pending := [] }
    net := [], issued := [], trace := [] }

/-- The middleware as a transition system. -/
def system (cfg : Cfg n) : Transition.System (State n) (Act n) :=
  { init := init, step := step cfg }

/-- `accept` takes the connections of one sender in the order they were opened. -/
def Fifo (s : State n) (a : Act n) (_ : State n) : Prop :=
  match a with
  | .accept _ k _ _ => ∀ pk ∈ s.net[k]?, pk.src ≠ none →
      ∀ pk' ∈ s.net.take k, pk'.dst = pk.dst → pk'.src ≠ pk.src
  | _ => True

instance (s : State n) (a : Act n) (s' : State n) : Decidable (Fifo s a s') :=
  match a with
  | .accept _ k _ _ => inferInstanceAs (Decidable (∀ pk ∈ s.net[k]?, pk.src ≠ none →
      ∀ pk' ∈ s.net.take k, pk'.dst = pk.dst → pk'.src ≠ pk.src))
  | .client _ _ | .perform _ | .abort _ _ | .drop _ => inferInstanceAs (Decidable True)

/-- No connection fails and no handler returns early. -/
def FailureFree (_ : State n) (a : Act n) (_ : State n) : Prop :=
  match a with
  | .abort _ _ | .drop _ => False
  | _ => True

instance (s : State n) (a : Act n) (s' : State n) : Decidable (FailureFree s a s') :=
  match a with
  | .abort _ _ | .drop _ => inferInstanceAs (Decidable False)
  | .client _ _ | .accept _ _ _ _ | .perform _ => inferInstanceAs (Decidable True)

end DistKv.Tob
