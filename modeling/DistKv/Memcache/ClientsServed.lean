import DistKv.Memcache.HashAtomic
import DistKv.Memcache.Pipeline
import DistKv.Memcache.Segments

/-!
# The server as its clients see it (`client.c`, `server_mt.c`)

What `encode_set` and `encode_get` make of a request goes through both pools of
threads. In pieces that let it through, and with the memory it asks for, a
connection thread reads back what the client meant, and the hash threads serve it.
For keys that are apart the server is then an atomic map for its clients, and at
rest every connection was answered and closed (`clients_served`).
-/

namespace DistKv.Memcache

open CText Linearizable Transition

variable {c n : Nat} {table : Table} {log : List UInt8} {keys : Str → Prop}

/-- The connection brings a request of a client, in pieces that let it through, and
`handle_client` gets all the memory it asks for. -/
structure Conn.Brings (conn : Conn) (req : ClientRequest) : Prop where
  arrives : ∃ pieces, conn.incoming = .cut req.message pieces ∧ req.ArrivesIn pieces
  mallocs : ∀ i < 6, conn.mallocs i = true
  erange : conn.erange = false

/-- `handle_client` makes of the bytes what the client meant. -/
theorem Conn.Brings.queues {conn : Conn} {req : ClientRequest} (h : conn.Brings req) :
    Queues conn req.node := by
  obtain ⟨pieces, hincoming, harrives⟩ := h.arrives
  obtain ⟨s', hread⟩ := queued_eq_some.mp ((queued_iff req pieces).mpr harrives)
  refine queues_iff.mpr ⟨⟨s', ?_⟩, h.mallocs⟩
  rw [h.erange, hincoming]
  exact hread

/-- Connections are opened by clients only, with plain requests about keys of the family. -/
def PipelineAct.FromClients (keys : Str → Prop) : PipelineAct c n → Prop
  | .handleClient _ conn _ => ∃ req : ClientRequest, conn.Brings req ∧ Plain keys req.node
  | _ => True

namespace Pipeline

/-- What runs of the server with such clients keep. -/
structure ForClients (table : Table) (log : List UInt8) (keys : Str → Prop) (s : Pipeline c n) :
    Prop where
  returned : s.returned = []
  hash : (hashThreads n table log).ReachableVia (HashThreads.Asks keys) s.hash
  calls : ∀ i b, Event.call i b ∈ s.hash.trace → ∃ req : ClientRequest, b.data = req.node

theorem ForClients.step {s s' : Pipeline c n} {a : PipelineAct c n}
    (h : s.ForClients table log keys) (hstep : PipelineStep s a s') (ha : a.FromClients keys) :
    s'.ForClients table log keys := by
  cases hstep with
  | conns a conns hfinish hconns => exact ⟨h.returned, h.hash, h.calls⟩
  | queued w conn conn' wakes fd r conns hash hrun hw hconns hcall =>
      obtain ⟨req, hbrings, hplain⟩ := ha
      obtain ⟨conn'', hqueues⟩ := hbrings.queues
      -- the request that was read is the client's
      have hnode : r.node = req.node :=
        congrArg WorkItem.node (congrArg Prod.fst (Except.ok.inj (hrun.symm.trans hqueues)))
      have hqueue : (hashThreads n table log).step s.hash (.enqueueHash r fd wakes) = some hash :=
        hcall
      have hasks : Plain keys r.node := by
        rw [hnode]
        exact hplain
      refine ⟨h.returned, .step h.hash hqueue hasks, fun i b hb => ?_⟩
      have hwf := HashThreads.reachable_wf h.hash.reachable
      rcases HashThreads.call_of_step (HashThreads.step_spec hwf hcall).1 hb with
        hold | ⟨r', fd', wakes', heq, rfl⟩
      · exact h.calls i b hold
      · obtain ⟨rfl, -, -⟩ := HashAct.enqueueHash.inj heq
        exact ⟨req, hnode⟩
  | returned w conn conn' wakes fd conns hrun hw hconns =>
      -- `handle_client` does not return without a node
      obtain ⟨req, hbrings, -⟩ := ha
      obtain ⟨conn'', hqueues⟩ := hbrings.queues
      cases hrun.symm.trans hqueues
  | hash a hash hcall hhash =>
      have hstep' : (hashThreads n table log).step s.hash a = some hash := hhash
      have hasks : HashThreads.Asks keys s.hash a hash := by
        cases a with
        | enqueueHash r fd wakes => cases hcall
        | _ => trivial
      refine ⟨h.returned, .step h.hash hstep' hasks, fun i b hb => ?_⟩
      have hwf := HashThreads.reachable_wf h.hash.reachable
      rcases HashThreads.call_of_step (HashThreads.step_spec hwf hhash).1 hb with
        hold | ⟨r, fd, wakes, rfl, -⟩
      · exact h.calls i b hold
      · cases hcall

theorem reachable_forClients {s : Pipeline c n}
    (h : (pipeline c n table log).ReachableVia (fun _ a _ => a.FromClients keys) s) :
    s.ForClients table log keys :=
  System.ReachableVia.invariant (P := ForClients table log keys)
    ⟨rfl, .init, fun _ _ hb => absurd hb List.not_mem_nil⟩
    (fun _ _ _ _ hs hstep ha => hs.step (step_spec hstep) ha) s h

/-- **For its clients the server is an atomic map.** Let the table at the start store a map.
In every run in which the connections bring the messages of `encode_set` and `encode_get`
about keys that are apart, with sizes of at most thirteen digits, the requests
are those the clients meant, the history of requests and replies is that of a map whose
operations happen one at a time, somewhere between call and answer, and where no thread has
anything left to do every request was answered once and every connection was closed. -/
theorem clients_served (hkeys : Apart keys) {m : Str → Option Entry}
    (htable : Stored keys table m) (hc : 0 < c) (hn : 0 < n) {s : Pipeline c n}
    (h : (pipeline c n table log).ReachableVia (fun _ a _ => a.FromClients keys) s) :
    (∀ i b, Event.call i b ∈ s.hash.trace → ∃ req : ClientRequest, b.data = req.node) ∧
      Linearizes (mapSpec m) s.hash.trace (commits s.hash.trace) ∧
      ((pipeline c n table log).Stuck PipelineAct.Inner s →
        s.hash.AllAnswered ∧ ∀ fd, s.conns.accepted.count fd =
          s.hash.closed.countP fun b => b.block.sockFd = fd) := by
  obtain ⟨hreturned, hhash, hcalls⟩ := reachable_forClients h
  refine ⟨hcalls, ?_, fun hstuck => ?_⟩
  · exact (HashThreads.linearizes_of_reachable htable.sized hhash.reachable).simulate
      (simulates_map hkeys htable) (HashThreads.calls_plain hhash)
  · have hprintable : s.hash.Printable := HashThreads.reachable_printable htable.printable
      (hhash.mono fun _ _ _ => HashThreads.Asks.printable)
    obtain ⟨hall, hended⟩ := ended_of_stuck h.reachable hprintable hc hn fun a ha => hstuck a ha.1
    refine ⟨hall, fun fd => ?_⟩
    have hfd := hended fd
    rw [hreturned, List.count_nil, Nat.zero_add] at hfd
    exact hfd

open HashThreads (twoKeys twoKeys_apart empty_stored w₀ w₁)

/-- `client set A 3 q` -/
def setA : SetArgs := ⟨Str.ofBytes [65], 3, Str.ofBytes [113], by decide, by decide, by decide⟩

/-- The message in one piece. -/
def asked (req : ClientRequest) : Conn := quietConn (.cut req.message [])

theorem asked_brings {req : ClientRequest} (h : queued req.message [] = some req.node) :
    (asked req).Brings req :=
  ⟨⟨[], rfl, (queued_iff req []).mp h⟩, fun _ _ => rfl, rfl⟩

/-- `A` is set, and asked for on a connection that is accepted after the set was answered. -/
def setThenFetch : List (PipelineAct 2 2) :=
  [.conns (.check w₀), .hash (.check w₀), .conns (.accept 7 (some w₀)), .conns (.resume w₀),
    .handleClient w₀ (asked (.set setA)) (some w₀), .hash (.resume w₀),
    .hash (.lock w₀), .hash (.logSet w₀), .hash (.insert w₀), .hash (.unlock w₀),
    .hash (.send w₀ []), .conns (.accept 8 none), .conns (.check w₁),
    .handleClient w₁ (asked (.get setA.key)) none, .hash (.check w₁),
    .hash (.lock w₁), .hash (.get w₁), .hash (.unlock w₁), .hash (.send w₁ []),
    .hash (.close w₁), .hash (.close w₀), .hash (.check w₀), .hash (.check w₁),
    .conns (.check w₀), .conns (.check w₁)]

theorem setThenFetch_fromClients :
    (pipeline 2 2 Table.empty []).ReachableVia (fun _ a _ => a.FromClients twoKeys)
      ((pipeline 2 2 Table.empty []).endOf setThenFetch) := by
  have hfrom : ∀ a ∈ setThenFetch, a.FromClients twoKeys := by
    simp only [setThenFetch, List.forall_mem_cons, PipelineAct.FromClients, true_and]
    refine ⟨⟨.set setA, asked_brings ?_, ?_⟩, ⟨.get setA.key, asked_brings ?_, ?_⟩,
      List.forall_mem_nil _⟩
    all_goals decide +kernel
  have hrun : (pipeline 2 2 Table.empty []).exec (init 2 2 Table.empty []) setThenFetch =
      some ((pipeline 2 2 Table.empty []).endOf setThenFetch) :=
    System.runVia_eq_some_endOf (by decide +kernel)
  exact System.ReachableVia.of_exec .init (fun a ha _ _ => hfrom a ha) hrun

/-- The second connection is sent what the first one stored. -/
theorem setThenFetch_served :
    let s := (pipeline 2 2 Table.empty []).endOf setThenFetch
    Event.answer 1 ⟨8, some [86, 65, 76, 85, 69, 32, 65, 32, 51, 13, 10, 113, 13, 10, 69, 78, 68,
        13, 10]⟩ ∈ s.hash.trace ∧
      Linearizes (mapSpec fun _ => none) s.hash.trace (commits s.hash.trace) ∧
      s.conns.accepted.count 8 = s.hash.closed.countP fun b => b.block.sockFd = 8 := by
  obtain ⟨-, hlin, hended⟩ := clients_served twoKeys_apart empty_stored Nat.two_pos Nat.two_pos
    setThenFetch_fromClients
  exact ⟨by decide +kernel, hlin,
    (hended (stuck_of_sleeping (by decide +kernel) (by decide +kernel))).2 8⟩

end Pipeline

end DistKv.Memcache
