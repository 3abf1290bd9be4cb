import DistKv.Tob.ClientApp
import DistKv.Tob.Control

/-!
# The middleware on bytes (`client_handle.c`, `client_app.c`)

The processes of `Middleware` with what is really sent: a connection is the bytes
that were put on it. Whoever opens one writes the encoding of the source there, and
the process that accepts it reads the header and the message as in `HandleClient`,
with whatever results its calls of `recv` have, and goes on from what it decoded.

A body of a BROAD of which nothing was sent is waited for: `total_broadcast` does not
close its connections. A BROAD is encoded into the block that `malloc` gives for it, and
a process that stores past that block does nothing more. What the handlers touch of their
arrays is in `Bounds`; a complete header is stored at `header[7]`, one byte behind its
array, and here as in `HandleClient` nobody else uses that byte.

`src` and `mid`, `issued` and `trace` are for the history, as in `Middleware`; what a
failing call does to a message is not recorded.
-/

namespace DistKv.Tob.OnWire

open BlockHeap CText Wire
open DistKv.Memcache (Incoming)

variable {n : Nat}

/-- A connection and the bytes that were sent on it. -/
structure Stream (n : Nat) where
  src : Option (Fin n)
  dst : Nat
  bytes : Bytes
  mid : Nat
deriving DecidableEq, Repr

/-- What a handler still has to do, as `Out`, with the bytes it sends. -/
inductive Task (n : Nat)
  | send (c : Stream n)
  | write (mid : Nat) (buffer : Bytes)
  | hang (mid : Nat)
  | overrun (mid : Nat)
deriving DecidableEq, Repr

structure Proc (n : Nat) where
  lc : UInt32
  queue : Queue
  pending : List (Task n)
deriving DecidableEq, Repr

structure State (n : Nat) where
  procs : Fin n → Proc n
  net : List (Stream n)
  issued : List (Issued n)
  trace : List (Event n)

/-- What a handler leaves. -/
structure Outcome (n : Nat) where
  proc : Proc n
  events : List (Event n) := []
  issued : Option (Issued n) := none

/-! ## The handlers, behind the calls of `recv` -/

/-- The same bytes to each of the ports `BASEPORT .. BASEPORT + nprocs - 1`. -/
def sendAll (p : Fin n) (node : Node) (bytes : Bytes) : List (Task n) :=
  (List.range node.nprocs).map fun i => .send ⟨some p, basePort + i, bytes, node.mid⟩

/-- `total_broadcast`: the clock it leaves, and what it does. `heap` is what the block held
in which the message is encoded. -/
def totalBroadcast (cfg : Cfg n) (p : Fin n) (heap : Bytes) (node : Node) (lc : UInt32) :
    UInt32 × List (Task n) :=
  let lc := lc + 1
  let buffer := malloc (cfg.usable (totalBufferSize node)) heap
  (lc, match Wire.encodeBroadcastBuffer node buffer lc with
    | some buffer => sendAll p node (buffer.take (totalBufferSize node))
    -- what is behind an overrun is never performed
    | none => .overrun node.mid :: sendAll p node (offered node lc))

/-- `handle_issue`, from `create_node` on. -/
def handleIssue (cfg : Cfg n) (p : Fin n) (mid : Nat) (heap : Bytes) (proc : Proc n)
    (buffer : Bytes) (bufLen : Nat) : Outcome n :=
  let lc := proc.lc + 1
  let uid := generateUid (cfg.pid p) lc
  let node := createNode (cfg.pid p) (port p) false 0 buffer bufLen lc uid n mid
  let (lc', tasks) := totalBroadcast cfg p heap node lc
  { proc := { proc with lc := lc', pending := tasks }
    events := [.issued p mid lc, .broadcast p mid lc']
    issued := some ⟨p, lc, uid, lcField lc', bufLen⟩ }

/-- `check_and_ack_head`; `stack` is what the array of `send_p2p_ack` held. -/
def checkAndAckHead (p : Fin n) (stack : Bytes) (q : Queue) :
    Option (Queue × List (Task n) × List (Event n)) :=
  q.orderQueue.bind fun q =>
    match q.head with
    | none => some (q, [], [])
    | some a =>
        (load q.heap a).bind fun c =>
          if c.val.ackFlg = false then
            (Wire.sendP2pAck stack c.val.pid c.val.uid).map fun text =>
              (q.store a (fun x => { x with ackFlg := true }),
                [.send ⟨some p, c.val.portNum, text.bytes, c.val.mid⟩], [.flagged p c.val.mid])
          else some (q, [], [])

/-- `handle_broadcast`, behind the `recv` of the message. -/
def handleBroadcast (p : Fin n) (mid : Nat) (stack : Bytes) (proc : Proc n) (md : Metadata)
    (message : Bytes) : Option (Outcome n) :=
  let lcCpy := proc.lc + 1
  let lc := if lcCpy < md.nodeLc then md.nodeLc else lcCpy
  let newNode := createNode md.basePid.toNat md.basePort.toNat false 0 message md.msgLen.toNat
    md.nodeLc md.uid n mid
  let q := (proc.queue.malloc newNode).enqueue proc.queue.heap.length
  (checkAndAckHead p stack q).map fun r =>
    { proc := { lc := lc, queue := r.1, pending := r.2.1 }
      events := .received p mid lc ::
        (if proc.queue.wedged then [.swallowed p mid] else []) ++ r.2.2 }

/-- `handle_ack`, from `find_node` on. -/
def handleAck (p : Fin n) (src : Option (Fin n)) (mid : Nat) (stack : Bytes) (proc : Proc n)
    (uid : UInt32) : Option (Outcome n) :=
  (proc.queue.findNode uid).bind fun found =>
    match found with
    | none => some { proc := proc, events := [.gotAck p src mid none] }
    | some a =>
        let q := proc.queue.store a (fun x => { x with ackCount := x.ackCount + 1 })
        (load q.heap a).bind fun c =>
          if c.val.ackCount = c.val.nprocs then
            -- `broadcast_ready_message` and `write_shared`
            let lc := proc.lc + 1
            (readyMessage stack c.val).map fun text =>
              { proc :=
                  { lc := lc
                    queue := q
                    pending := sendAll p c.val text.bytes ++ [.write c.val.mid c.val.buffer] }
                events := [.gotAck p src mid (some c.val.mid), .marked p c.val.mid q.headMid lc] }
          else
            some { proc := { proc with queue := q }
                   events := [.gotAck p src mid (some c.val.mid)] }

/-- `handle_ready`, from `dequeue` on. -/
def handleReady (p : Fin n) (mid : Nat) (proc : Proc n) (uid : UInt32) : Option (Outcome n) :=
  (proc.queue.dequeue uid).map fun q =>
    { proc := { proc with queue := q }
      events := [.gotReady p mid ((proc.queue.nodes.find? (fun x => x.uid = uid)).map Node.mid)
        proc.queue.headMid (bareHead q.nodes)] }

/-- A handler that returned on a failing call; those for ISSUE and BROAD count it as an event. -/
def returned (proc : Proc n) : Handler → Outcome n
  | .issue | .broadcast => { proc := { proc with lc := proc.lc + 1 } }
  | .ack | .ready => { proc := proc }

/-- What handler `h` does with what it read. -/
def react (cfg : Cfg n) (p : Fin n) (fresh : Nat) (m : Memory) (proc : Proc n) (c : Stream n)
    (h : Handler) : Parsed → Option (Outcome n)
  | .returned => some (returned proc h)
  | .undefined => none
  | .issue buffer bufLen => some (handleIssue cfg p fresh m.heap proc buffer bufLen)
  | .broad md message => handleBroadcast p c.mid m.stack proc md message
  | .ack _ uid => handleAck p c.src c.mid m.stack proc uid
  | .ready uid => handleReady p c.mid proc uid

/-- A `recv` of `handle_broadcast` finds nothing on a connection that is still open: in
`recv_buffer`, or in front of the body. -/
def Waits (m : Memory) (s : Incoming) : Prop :=
  m.granted = true ∧ ∃ r ∈ recvBufferFrom (malloc 39 m.heap) 38 s,
    r.1.failed = false ∧ (r.1.len < 38 ∨ r.2.input = [] ∧ r.2.recvs.head? ≠ some none)

instance (m : Memory) (s : Incoming) : Decidable (Waits m s) :=
  inferInstanceAs (Decidable (m.granted = true ∧ ∃ r ∈ recvBufferFrom (malloc 39 m.heap) 38 s,
    r.1.failed = false ∧ (r.1.len < 38 ∨ r.2.input = [] ∧ r.2.recvs.head? ≠ some none)))

/-- `handle_client` on connection `c`, with the results `recvs` of its calls of `recv`. -/
def handleClient (cfg : Cfg n) (p : Fin n) (fresh : Nat) (proc : Proc n) (c : Stream n)
    (m : Memory) (recvs : List (Option Nat)) : Option (Outcome n) :=
  match (Wire.handleClient m ⟨c.bytes, recvs⟩).2 with
  | [] => some { proc := proc }
  | (h, run) :: _ =>
      if h = .broadcast ∧ Waits m (Incoming.recv ⟨c.bytes, recvs⟩ 7).2 then
        some { proc := { proc with lc := proc.lc + 1, pending := [.hang c.mid] } }
      else react cfg p fresh m proc c h run.parsed

/-! ## Runs -/

inductive Act (n : Nat)
  /-- `client_app` connects to `p` and sends a message -/
  | client (p : Fin n) (message : Str)
  /-- `p` accepts the connection at position `k`, and its calls end so -/
  | accept (p : Fin n) (k : Nat) (m : Memory) (recvs : List (Option Nat))
  /-- `p` performs the next action of the handler it runs -/
  | perform (p : Fin n)
  /-- a connection fails before it is handled -/
  | drop (k : Nat)

/-- Apply a handler's outcome at `p`. -/
def State.handled (s : State n) (p : Fin n) (k : Nat) (o : Outcome n) : State n :=
  { procs := Function.update s.procs p o.proc
    net := s.net.eraseIdx k
    issued := s.issued ++ o.issued.toList
    trace := s.trace ++ o.events }

/-- The message is an ACK. -/
def isAck (bytes : Bytes) : Bool := Handler.ack.name.isPrefixOf bytes

/-- Perform the first pending action of `p`. -/
def State.performed (s : State n) (p : Fin n) : Task n → List (Task n) → Option (State n)
  | .send c, rest =>
      some { s with
        procs := Function.update s.procs p { s.procs p with pending := rest }
        net := s.net ++ [c]
        trace := s.trace ++
          if isAck c.bytes then [.acked p c.mid (s.procs p).queue.headMid] else [] }
  | .write mid buffer, rest =>
      some { s with
        procs := Function.update s.procs p { s.procs p with pending := rest }
        trace := s.trace ++ [.wrote p mid buffer] }
  | .hang _, _ | .overrun _, _ => none

/-- Process `p` is idle and connection `k` is for it. -/
def State.offered (s : State n) (p : Fin n) (k : Nat) : Option (Stream n) :=
  match (s.procs p).pending, s.net[k]? with
  | [], some c => if c.dst = port p then some c else none
  | _, _ => none

/-- What `client_app` sends, when what lies behind its array is written too. -/
def encoded (message : Str) : Option Bytes :=
  match encodeInto message (malloc (issueBufferSize message + 1) []) with
  | .encoded msgBuffer => some msgBuffer
  | .refused | .outside => none

def step (cfg : Cfg n) (s : State n) : Act n → Option (State n)
  | .client p message =>
      (encoded message).map fun bytes =>
        { s with net := s.net ++ [⟨none, port p, bytes, 0⟩] }
  | .accept p k m recvs =>
      (s.offered p k).bind fun c =>
        (handleClient cfg p s.issued.length (s.procs p) c m recvs).map (s.handled p k)
  | .perform p =>
      match (s.procs p).pending with
      | [] => none
      | task :: rest => s.performed p task rest
  | .drop k =>
      match s.net[k]? with
      | none => none
      | some _ => some { s with net := s.net.eraseIdx k }

def init : State n :=
  { procs := fun _ => { lc := 0, queue := Queue.empty, pending := [] }
    net := [], issued := [], trace := [] }

/-- The middleware on bytes as a transition system. -/
def system (cfg : Cfg n) : Transition.System (State n) (Act n) :=
  { init := init, step := step cfg }

end DistKv.Tob.OnWire
