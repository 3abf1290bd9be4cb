import DistKv.Tob.Protocol

/-!
# Messages keep their fields

Every node, packet and pending connection of message `m` carries the uid, the
timestamp, the pid and the port with which `m` was issued: the fixed-width
fields of a BROAD lose nothing of the pid and the port, and what is lost of
the clock is lost in the record's `stamp` as well. An ACK for `m` goes to the
issuer of `m`, and the node that an ACK or a READY hits has the right uid.
-/

namespace DistKv.Tob

open FirstMatch StableInsert

variable {n : Nat}

/-- A node of a message carries what the message was issued with. -/
def Node.Tagged (cfg : Cfg n) (issued : List (Issued n)) (x : Node) : Prop :=
  ∃ r, issued[x.mid]? = some r ∧ x.uid = r.uid ∧ x.lc = r.stamp ∧ x.pid = cfg.pid r.owner ∧
    x.portNum = port r.owner ∧ x.nprocs = n

/-- So does a packet. -/
def Packet.Tagged (cfg : Cfg n) (issued : List (Issued n)) (pk : Packet n) : Prop :=
  match pk.msg with
  | .issue _ => True
  | .broad uid pid portNum stamp _ _ =>
      ∃ r, issued[pk.mid]? = some r ∧ uid = r.uid ∧ stamp = r.stamp ∧ pid = cfg.pid r.owner ∧
        portNum = port r.owner
  | .ack _ uid =>
      ∃ r, issued[pk.mid]? = some r ∧ uid = r.uid ∧ pk.dst = port r.owner ∧ ∃ q, pk.src = some q
  | .ready uid => ∃ r, issued[pk.mid]? = some r ∧ uid = r.uid

/-- And a pending action of `p`. A message that overruns its buffer does not fit it. -/
def Out.Tagged (cfg : Cfg n) (issued : List (Issued n)) (p : Fin n) : Out n → Prop
  | .send pk => pk.Tagged cfg issued ∧ pk.src = some p
  | .write _ _ => True
  | .hang _ => True
  | .overrun mid => ∃ r, issued[mid]? = some r ∧ ¬ cfg.Fits r.bufLen

/-- The uid and the timestamp a message is issued with. -/
def Issued.Tagged (cfg : Cfg n) (r : Issued n) : Prop :=
  r.uid = generateUid (cfg.pid r.owner) r.lc ∧ r.stamp = lcField (r.lc + 1)

/-- An event names an issued message. ACKs are handled by the issuer, and the
node that an ACK or a READY hits has the uid of the message it is for. -/
def Event.Tagged (issued : List (Issued n)) : Event n → Prop
  | .issued p m clock => ∃ r, issued[m]? = some r ∧ r.owner = p ∧ r.lc = clock
  | .received _ m _ => ∃ r, issued[m]? = some r
  | .gotAck p src m hit => (∃ q, src = some q) ∧ ∃ r, issued[m]? = some r ∧ r.owner = p ∧
      ∀ h ∈ hit, ∃ r', issued[h]? = some r' ∧ r'.uid = r.uid
  | .gotReady _ m hit _ _ => ∃ r, issued[m]? = some r ∧
      ∀ h ∈ hit, ∃ r', issued[h]? = some r' ∧ r'.uid = r.uid
  | _ => True

structure View.Tagged (cfg : Cfg n) (v : View n) : Prop where
  issued : ∀ r ∈ v.issued, r.Tagged cfg
  net : ∀ pk ∈ v.net, pk.Tagged cfg v.issued
  pending : ∀ p, ∀ out ∈ (v.procs p).pending, out.Tagged cfg v.issued p
  queue : ∀ p, ∀ x ∈ (v.procs p).queue, x.Tagged cfg v.issued
  trace : ∀ e ∈ v.trace, e.Tagged v.issued

section monotone

variable {cfg : Cfg n} {issued more : List (Issued n)}

theorem getElem?_append_of_eq_some {α : Type} {l more : List α} {k : Nat} {a : α}
    (h : l[k]? = some a) : (l ++ more)[k]? = some a := by
  rw [List.getElem?_append_left (List.getElem?_eq_some_iff.mp h).1, h]

theorem Node.Tagged.mono {x : Node} (h : x.Tagged cfg issued) :
    x.Tagged cfg (issued ++ more) := by
  obtain ⟨r, hr, hrest⟩ := h
  exact ⟨r, getElem?_append_of_eq_some hr, hrest⟩

theorem Packet.Tagged.mono {pk : Packet n} (h : pk.Tagged cfg issued) :
    pk.Tagged cfg (issued ++ more) := by
  unfold Packet.Tagged at *
  cases hmsg : pk.msg with
  | issue message => trivial
  | broad uid pid portNum stamp len body =>
      rw [hmsg] at h
      obtain ⟨r, hr, hrest⟩ := h
      exact ⟨r, getElem?_append_of_eq_some hr, hrest⟩
  | ack pid uid =>
      rw [hmsg] at h
      obtain ⟨r, hr, hrest⟩ := h
      exact ⟨r, getElem?_append_of_eq_some hr, hrest⟩
  | ready uid =>
      rw [hmsg] at h
      obtain ⟨r, hr, hrest⟩ := h
      exact ⟨r, getElem?_append_of_eq_some hr, hrest⟩

theorem Out.Tagged.mono {p : Fin n} {out : Out n} (h : out.Tagged cfg issued p) :
    out.Tagged cfg (issued ++ more) p := by
  cases out with
  | send pk => exact ⟨h.1.mono, h.2⟩
  | write mid buffer => trivial
  | hang mid => trivial
  | overrun mid =>
      obtain ⟨r, hr, hfits⟩ := h
      exact ⟨r, getElem?_append_of_eq_some hr, hfits⟩

theorem Event.Tagged.mono {e : Event n} (h : e.Tagged issued) :
    e.Tagged (issued ++ more) := by
  cases e with
  | issued p m clock =>
      obtain ⟨r, hr, hrest⟩ := h
      exact ⟨r, getElem?_append_of_eq_some hr, hrest⟩
  | received p m clock =>
      obtain ⟨r, hr⟩ := h
      exact ⟨r, getElem?_append_of_eq_some hr⟩
  | gotAck p src m hit =>
      obtain ⟨hsrc, r, hr, hp, hhit⟩ := h
      refine ⟨hsrc, r, getElem?_append_of_eq_some hr, hp, fun k hk => ?_⟩
      obtain ⟨r', hr', huid⟩ := hhit k hk
      exact ⟨r', getElem?_append_of_eq_some hr', huid⟩
  | gotReady p m hit head bare =>
      obtain ⟨r, hr, hhit⟩ := h
      refine ⟨r, getElem?_append_of_eq_some hr, fun k hk => ?_⟩
      obtain ⟨r', hr', huid⟩ := hhit k hk
      exact ⟨r', getElem?_append_of_eq_some hr', huid⟩
  | _ => trivial

end monotone

theorem port_inj {p q : Fin n} : port p = port q ↔ p = q := by
  unfold port
  rw [Nat.add_left_cancel_iff, Fin.val_inj]

/-- A pid fits the eight digits of its field. -/
theorem cut_pid (cfg : Cfg n) (p : Fin n) : Decimal.cut 8 (cfg.pid p) = cfg.pid p :=
  Decimal.cut_of_lt (by decide) (cfg.pid_lt p)

/-- So does a port. -/
theorem cut_port (cfg : Cfg n) (p : Fin n) : Decimal.cut 8 (port p) = port p := by
  apply Decimal.cut_of_lt (by decide)
  have h1 := p.isLt
  have h2 := cfg.ports
  unfold port
  omega

theorem mem_sendAll {p : Fin n} {node : Node} {msg : Msg} {out : Out n}
    (h : out ∈ sendAll p node msg) : ∃ dst, out = .send ⟨some p, dst, msg, node.mid⟩ := by
  obtain ⟨i, -, rfl⟩ := List.mem_map.mp h
  exact ⟨_, rfl⟩

/-- `total_broadcast` overruns its buffer or opens a connection. -/
theorem mem_totalBroadcast {cfg : Cfg n} {p : Fin n} {node : Node} {lc : UInt32} {out : Out n}
    (h : out ∈ (totalBroadcast cfg p node lc).2) :
    ¬ cfg.Fits node.bufLen ∧ out = .overrun node.mid ∨
      out ∈ sendAll p node (encodeBroadcastBuffer node (lc + 1)) := by
  refine (List.mem_append.mp h).imp_left fun hover => ?_
  unfold overruns at hover
  split at hover
  · cases hover
  · exact ⟨‹_›, List.mem_singleton.mp hover⟩

/-- A handler tags what it leaves. -/
theorem Handles.tagged {cfg : Cfg n} {p : Fin n} {issuedOld : List (Issued n)}
    {x x' : ViewProc n} {pk : Packet n} {events : List (Event n)} {issued : Option (Issued n)}
    (h : Handles cfg p issuedOld.length x pk x' events issued)
    (hpk : pk.Tagged cfg issuedOld) (hidle : x.pending = [])
    (hq : ∀ y ∈ x.queue, y.Tagged cfg issuedOld) :
    (∀ out ∈ x'.pending, out.Tagged cfg (issuedOld ++ issued.toList) p) ∧
      (∀ y ∈ x'.queue, y.Tagged cfg (issuedOld ++ issued.toList)) ∧
      ∀ r ∈ issued, r.Tagged cfg := by
  unfold Packet.Tagged at hpk
  cases h with
  | issue message hmsg =>
      refine ⟨fun out hout => ?_, fun y hy => (hq y hy).mono, ?_⟩
      · have hlast : (issuedOld ++ [issueRecord cfg p x.lc message])[issuedOld.length]? =
            some (issueRecord cfg p x.lc message) := List.getElem?_concat_length
        rcases mem_totalBroadcast hout with ⟨hfits, rfl⟩ | hout
        · exact ⟨_, hlast, hfits⟩
        · obtain ⟨dst, rfl⟩ := mem_sendAll hout
          exact ⟨⟨_, hlast, rfl, rfl, cut_pid cfg p, cut_port cfg p⟩, rfl⟩
      · rintro r ⟨⟩
        exact ⟨rfl, rfl⟩
  | hang uid pid port stamp len hmsg =>
      simpa [Out.Tagged] using hq
  | lose uid pid port stamp len body hmsg hw =>
      simpa using hq
  | enqueueAck uid pid port stamp len body buffer head rest hmsg hw hins hf =>
      rw [hmsg] at hpk
      obtain ⟨r, hr, huid, hstamp, hpid, hport⟩ := hpk
      have hall : ∀ y ∈ head :: rest, y.Tagged cfg issuedOld := by
        intro y hy
        rw [← hins, mem_insertBehind] at hy
        rcases hy with rfl | hy
        · exact ⟨r, hr, huid, hstamp, hpid, hport, rfl⟩
        · exact hq y hy
      obtain ⟨r', hr', huid', -, -, hport', -⟩ := hall head List.mem_cons_self
      refine ⟨?_, ?_, by simp⟩
      · simp only [List.mem_singleton, forall_eq, Option.toList_none, List.append_nil]
        exact ⟨⟨r', hr', huid', hport', p, rfl⟩, rfl⟩
      · simp only [Option.toList_none, List.append_nil]
        intro y hy
        rcases List.mem_cons.mp hy with rfl | hy
        · exact hall head List.mem_cons_self
        · exact hall y (List.mem_cons_of_mem _ hy)
  | enqueueQuiet uid pid port stamp len body buffer head rest hmsg hw hins hf =>
      rw [hmsg] at hpk
      obtain ⟨r, hr, huid, hstamp, hpid, hport⟩ := hpk
      refine ⟨by simp, ?_, by simp⟩
      simp only [Option.toList_none, List.append_nil, ← hins]
      intro y hy
      rcases mem_insertBehind.mp hy with rfl | hy
      · exact ⟨r, hr, huid, hstamp, hpid, hport, rfl⟩
      · exact hq y hy
  | ackMiss pid uid hmsg hnone => simpa [hidle] using hq
  | ackCount pid uid y hmsg hsome hcount =>
      refine ⟨by simp [hidle], ?_, by simp⟩
      simp only [Option.toList_none, List.append_nil]
      intro z hz
      obtain ⟨w, hw, rfl | rfl⟩ := mem_updateFirst hz
      · exact hq z hw
      · exact hq w hw
  | ackReady pid uid y hmsg hsome hcount =>
      obtain ⟨r, hr, huid, -⟩ := hq y (List.mem_of_find?_eq_some hsome)
      refine ⟨?_, ?_, by simp⟩
      · simp only [Option.toList_none, List.append_nil]
        intro out hout
        rcases List.mem_append.mp hout with hout | hout
        · obtain ⟨dst, rfl⟩ := mem_sendAll hout
          exact ⟨⟨r, hr, huid⟩, rfl⟩
        · obtain rfl := List.mem_singleton.mp hout
          trivial
      · simp only [Option.toList_none, List.append_nil]
        intro z hz
        obtain ⟨w, hw, rfl | rfl⟩ := mem_updateFirst hz
        · exact hq z hw
        · exact hq w hw
  | ready uid hmsg =>
      refine ⟨by simp [hidle], ?_, by simp⟩
      simp only [Option.toList_none, List.append_nil]
      exact fun y hy => hq y (List.mem_of_mem_eraseP hy)

/-- The node found by a uid is that of a message with this uid. -/
theorem find?_tagged {cfg : Cfg n} {issued : List (Issued n)} {l : List Node}
    (hl : ∀ y ∈ l, y.Tagged cfg issued) {uid : UInt32} {h : Nat}
    (hfind : (l.find? (fun y => y.uid = uid)).map Node.mid = some h) :
    ∃ r, issued[h]? = some r ∧ r.uid = uid := by
  obtain ⟨y, hy, rfl⟩ := Option.map_eq_some_iff.mp hfind
  obtain ⟨r, hr, huid, -⟩ := hl y (List.mem_of_find?_eq_some hy)
  have hyu : y.uid = uid := by simpa using List.find?_some hy
  exact ⟨r, hr, huid ▸ hyu⟩

/-- A handler tags the events it records. -/
theorem Handles.events_tagged {cfg : Cfg n} {p : Fin n} {issuedOld : List (Issued n)}
    {x x' : ViewProc n} {pk : Packet n} {events : List (Event n)} {issued : Option (Issued n)}
    (h : Handles cfg p issuedOld.length x pk x' events issued)
    (hpk : pk.Tagged cfg issuedOld) (hdst : pk.dst = port p)
    (hq : ∀ y ∈ x.queue, y.Tagged cfg issuedOld) :
    ∀ e ∈ events, e.Tagged (issuedOld ++ issued.toList) := by
  unfold Packet.Tagged at hpk
  -- what is found by uid is a node of a message with that uid
  have hfound : ∀ {uid : UInt32} {r : Issued n}, uid = r.uid →
      ∀ k ∈ (x.queue.find? (fun y => y.uid = uid)).map Node.mid,
        ∃ r', issuedOld[k]? = some r' ∧ r'.uid = r.uid := by
    intro uid r huid k hk
    obtain ⟨r', hr', huid'⟩ := find?_tagged hq hk
    exact ⟨r', hr', huid'.trans huid⟩
  cases h with
  | issue message hmsg =>
      rw [List.forall_mem_cons, List.forall_mem_singleton]
      exact ⟨⟨issueRecord cfg p x.lc message, List.getElem?_concat_length, rfl, rfl⟩, trivial⟩
  | hang uid pid port stamp len hmsg => exact List.forall_mem_nil _
  | lose uid pid port stamp len body hmsg hw =>
      rw [hmsg] at hpk
      obtain ⟨r, hr, -⟩ := hpk
      rw [Option.toList_none, List.append_nil, List.forall_mem_cons, List.forall_mem_singleton]
      exact ⟨⟨r, hr⟩, trivial⟩
  | enqueueAck uid pid port stamp len body buffer head rest hmsg hw hins hf =>
      rw [hmsg] at hpk
      obtain ⟨r, hr, -⟩ := hpk
      rw [Option.toList_none, List.append_nil, List.forall_mem_cons, List.forall_mem_singleton]
      exact ⟨⟨r, hr⟩, trivial⟩
  | enqueueQuiet uid pid port stamp len body buffer head rest hmsg hw hins hf =>
      rw [hmsg] at hpk
      obtain ⟨r, hr, -⟩ := hpk
      rw [Option.toList_none, List.append_nil, List.forall_mem_singleton]
      exact ⟨r, hr⟩
  | ackMiss pid uid hmsg hnone =>
      rw [hmsg] at hpk
      obtain ⟨r, hr, -, hport, hsrc⟩ := hpk
      rw [Option.toList_none, List.append_nil, List.forall_mem_singleton]
      exact ⟨hsrc, r, hr, port_inj.mp (hport ▸ hdst), fun k hk => nomatch hk⟩
  | ackCount pid uid y hmsg hsome hcount =>
      rw [hmsg] at hpk
      obtain ⟨r, hr, huid, hport, hsrc⟩ := hpk
      have hhit := hfound huid
      rw [hsome] at hhit
      rw [Option.toList_none, List.append_nil, List.forall_mem_singleton]
      exact ⟨hsrc, r, hr, port_inj.mp (hport ▸ hdst), hhit⟩
  | ackReady pid uid y hmsg hsome hcount =>
      rw [hmsg] at hpk
      obtain ⟨r, hr, huid, hport, hsrc⟩ := hpk
      have hhit := hfound huid
      rw [hsome] at hhit
      rw [Option.toList_none, List.append_nil, List.forall_mem_cons, List.forall_mem_singleton]
      exact ⟨⟨hsrc, r, hr, port_inj.mp (hport ▸ hdst), hhit⟩, trivial⟩
  | ready uid hmsg =>
      rw [hmsg] at hpk
      obtain ⟨r, hr, huid⟩ := hpk
      rw [Option.toList_none, List.append_nil, List.forall_mem_singleton]
      exact ⟨r, hr, hfound huid⟩

theorem init_tagged (cfg : Cfg n) : (init : State n).view.Tagged cfg :=
  ⟨by simp [init, State.view], by simp [init, State.view],
    by simp [init, State.view, Proc.view],
    by simp [init, State.view, Proc.view, Queue.nodes_empty], by simp [init, State.view]⟩

/-- One process moves, and more messages may be issued. -/
theorem View.Tagged.update {cfg : Cfg n} {v : View n} (hv : v.Tagged cfg) {p : Fin n}
    {x : ViewProc n} (more : List (Issued n))
    (hpend : ∀ out ∈ x.pending, out.Tagged cfg (v.issued ++ more) p)
    (hqueue : ∀ y ∈ x.queue, y.Tagged cfg (v.issued ++ more)) :
    (∀ q, ∀ out ∈ (Function.update v.procs p x q).pending,
      out.Tagged cfg (v.issued ++ more) q) ∧
    ∀ q, ∀ y ∈ (Function.update v.procs p x q).queue, y.Tagged cfg (v.issued ++ more) := by
  constructor
  · intro q out hout
    by_cases hq : q = p
    · subst hq
      simp only [Function.update_self] at hout
      exact hpend out hout
    · rw [Function.update_of_ne hq] at hout
      exact (hv.pending q out hout).mono
  · intro q y hy
    by_cases hq : q = p
    · subst hq
      simp only [Function.update_self] at hy
      exact hqueue y hy
    · rw [Function.update_of_ne hq] at hy
      exact (hv.queue q y hy).mono

/-- A process performs its first pending action. -/
theorem View.Tagged.performed {cfg : Cfg n} {v : View n} (hv : v.Tagged cfg) {p : Fin n}
    {out : Out n} {rest : List (Out n)} (hp : (v.procs p).pending = out :: rest) :
    out.Tagged cfg v.issued p ∧
    (∀ q, ∀ o ∈ (Function.update v.procs p { v.procs p with pending := rest } q).pending,
      o.Tagged cfg v.issued q) ∧
    ∀ q, ∀ x ∈ (Function.update v.procs p { v.procs p with pending := rest } q).queue,
      x.Tagged cfg v.issued := by
  have hall := hv.pending p
  rw [hp] at hall
  have hup := hv.update (p := p) (x := { v.procs p with pending := rest }) []
    (by simpa using fun o ho => hall o (List.mem_cons_of_mem _ ho)) (by simpa using hv.queue p)
  simp only [List.append_nil] at hup
  exact ⟨hall out List.mem_cons_self, hup⟩

theorem View.Tagged.trace_append {cfg : Cfg n} {v : View n} (hv : v.Tagged cfg)
    {events : List (Event n)} (he : ∀ e ∈ events, e.Tagged v.issued) :
    ∀ e ∈ v.trace ++ events, e.Tagged v.issued := by
  intro e hmem
  rcases List.mem_append.mp hmem with hmem | hmem
  · exact hv.trace e hmem
  · exact he e hmem

theorem View.Tagged.step {cfg : Cfg n} {v v' : View n} {a : Act n} (hv : v.Tagged cfg)
    (h : ViewStep cfg v a v') : v'.Tagged cfg := by
  cases h with
  | client p message =>
      refine ⟨hv.issued, fun pk hpk => ?_, hv.pending, hv.queue, hv.trace⟩
      rcases List.mem_append.mp hpk with hpk | hpk
      · exact hv.net pk hpk
      · obtain rfl := List.mem_singleton.mp hpk
        trivial
  | accept p k got stack pk x events issued hidle hk hdst hx =>
      obtain ⟨hpend, hqueue, hiss⟩ :=
        hx.tagged (hv.net pk (List.mem_of_getElem? hk)) hidle (hv.queue p)
      obtain ⟨hpend', hqueue'⟩ := hv.update _ hpend hqueue
      refine ⟨fun r hr => ?_, fun pk' hpk' => ?_, hpend', hqueue', fun e he => ?_⟩
      · rcases List.mem_append.mp hr with hr | hr
        · exact hv.issued r hr
        · exact hiss r (by simpa using hr)
      · exact (hv.net pk' (List.mem_of_mem_eraseIdx hpk')).mono
      · rcases List.mem_append.mp he with he | he
        · exact (hv.trace e he).mono
        · exact hx.events_tagged (hv.net pk (List.mem_of_getElem? hk)) hdst (hv.queue p) e he
  | sendAck p pk rest pid uid hp hmsg =>
      obtain ⟨hout, hpend, hqueue⟩ := hv.performed hp
      refine ⟨hv.issued, fun pk' hpk' => ?_, hpend, hqueue,
        hv.trace_append (by simp [Event.Tagged])⟩
      rcases List.mem_append.mp hpk' with hpk' | hpk'
      · exact hv.net pk' hpk'
      · obtain rfl := List.mem_singleton.mp hpk'
        exact hout.1
  | send p pk rest hp hmsg =>
      obtain ⟨hout, hpend, hqueue⟩ := hv.performed hp
      refine ⟨hv.issued, fun pk' hpk' => ?_, hpend, hqueue, hv.trace⟩
      rcases List.mem_append.mp hpk' with hpk' | hpk'
      · exact hv.net pk' hpk'
      · obtain rfl := List.mem_singleton.mp hpk'
        exact hout.1
  | write p mid buffer rest hp =>
      obtain ⟨-, hpend, hqueue⟩ := hv.performed hp
      exact ⟨hv.issued, hv.net, hpend, hqueue, hv.trace_append (by simp [Event.Tagged])⟩
  | abort p k pk hidle hk hdst =>
      have hup := hv.update (p := p)
        (x := { v.procs p with lc := abortedClock (v.procs p).lc pk.msg }) []
        (by simpa using hv.pending p) (by simpa using hv.queue p)
      simp only [List.append_nil] at hup
      exact ⟨hv.issued, fun pk' hpk' => hv.net pk' (List.mem_of_mem_eraseIdx hpk'), hup.1, hup.2,
        hv.trace_append (by simp [Event.Tagged])⟩
  | drop k pk hk =>
      exact ⟨hv.issued, fun pk' hpk' => hv.net pk' (List.mem_of_mem_eraseIdx hpk'), hv.pending,
        hv.queue, hv.trace_append (by simp [Event.Tagged])⟩

end DistKv.Tob
