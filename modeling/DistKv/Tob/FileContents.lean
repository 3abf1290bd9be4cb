import DistKv.Tob.Progress

/-!
# What stands in the shared file

The text that `handle_ack` writes for a message was issued at this process,
sent in a BROAD to all, this one included, received into an array on the
stack and copied into a node. On the way it loses its last five bytes, which
`total_broadcast` does not send, and whatever one `recv` leaves behind; the
length field still counts them, so what the stack held stands in their place.

`issuedBuffers` are the buffers a run issues, in order. The file is, message
by message in the order of the writes, a first part of the buffer issued and
then stack bytes (`file_contents`). A write is one step (`write_shared`): stdio
hands a text of at most 4096 bytes to the file in one call.
-/

namespace DistKv.Tob

open FirstMatch StableInsert Transition

variable {n : Nat}

/-- The bytes after the metadata of a BROAD. -/
def Msg.body : Msg → Option Bytes
  | .broad _ _ _ _ _ body => some body
  | _ => none

/-- What one `recv` takes of the body of each BROAD, and what the array held before:
the number of bytes taken, the number that was sent, the bytes behind them. -/
def Receives (ok : Nat → Nat → Bytes → Prop) (s : State n) (a : Act n) (_ : State n) : Prop :=
  match a with
  | .accept _ k got stack => ∀ pk ∈ s.net[k]?, ∀ body ∈ pk.msg.body, ok got body.length stack
  | _ => True

instance (ok : Nat → Nat → Bytes → Prop) [∀ got sent stack, Decidable (ok got sent stack)]
    (s : State n) (a : Act n) (s' : State n) : Decidable (Receives ok s a s') :=
  match a with
  | .accept _ k got stack => inferInstanceAs (Decidable
      (∀ pk ∈ s.net[k]?, ∀ body ∈ pk.msg.body, ok got body.length stack))
  | .client _ _ | .perform _ | .abort _ _ | .drop _ => inferInstanceAs (Decidable True)

/-- The buffer that an accepted ISSUE is broadcast with. -/
def issuedBuffer (s : State n) : Act n → List Bytes
  | .accept p k _ _ =>
      match s.offered p k with
      | some ⟨_, _, .issue message, _⟩ => [issueBuffer message]
      | _ => []
  | _ => []

/-- The buffers that a run issues. -/
def issuedBuffers (cfg : Cfg n) : State n → List (Act n) → List Bytes
  | _, [] => []
  | s, a :: rest =>
      issuedBuffer s a ++
        match step cfg s a with
        | some s' => issuedBuffers cfg s' rest
        | none => []

/-- The bytes written to the shared file. -/
def fileContents (t : List (Event n)) : Bytes :=
  t.flatMap fun
    | .wrote _ _ buffer => buffer
    | _ => []

/-- What a node holds of an issued buffer: what one `recv` took of all but its last
five bytes, and stack bytes up to the length in the length field. -/
def TextOf (ok : Nat → Nat → Bytes → Prop) (issued buffer : Bytes) : Prop :=
  ∃ got stack, ok got (issued.length - 5) stack ∧
    buffer = ((issued.take (issued.length - 5)).take got ++ stack).take
      (Decimal.cut 6 issued.length)

/-! ## What a handler does to the nodes -/

/-- A node that was there, or the one of the BROAD. -/
def NodeFrom (old : List Node) (mid : Nat) (buffer : Bytes) (y : Node) : Prop :=
  (∃ x ∈ old, x.mid = y.mid ∧ x.buffer = y.buffer) ∨ y.mid = mid ∧ y.buffer = buffer

theorem handleBroadcast_nodes {p : Fin n} {mid : Nat} {proc : Proc n} {uid : UInt32}
    {pid port : Nat} {stamp : UInt32} {len : Nat} {body : Bytes} {got : Nat} {stack : Bytes}
    {o : Outcome n} (hs : proc.Sound)
    (h : handleBroadcast p mid proc uid pid port stamp len body got stack = some o) :
    ∀ y ∈ o.proc.queue.nodes,
      NodeFrom proc.queue.nodes mid ((body.take got ++ stack).take len) y := by
  obtain ⟨hwf, -⟩ := hs
  unfold handleBroadcast at h
  by_cases hbody : body = []
  · rw [if_pos hbody] at h
    obtain rfl := Option.some.inj h
    exact fun y hy => Or.inl ⟨y, hy, rfl, rfl⟩
  · rw [if_neg hbody] at h
    by_cases hgot : got = 0 ∨ body.length < got
    · rw [if_pos hgot] at h
      cases h
    · rw [if_neg hgot] at h
      obtain ⟨r, hr, rfl⟩ := Option.map_eq_some_iff.mp h
      generalize hnew : createNode pid port false 0 (body.take got ++ stack) len stamp uid n mid
        = new at hr
      -- every node of the sorted queue was queued before, or is the new one
      have hsorted : ∀ x ∈ stableSort Node.staysBefore
          ((proc.queue.malloc new).enqueue proc.queue.heap.length).nodes,
          NodeFrom proc.queue.nodes mid ((body.take got ++ stack).take len) x := by
        intro x hx
        rw [(perm_stableSort Node.staysBefore _).mem_iff] at hx
        cases hw : proc.queue.wedged with
        | true =>
            rw [Queue.nodes_of_wedged (Queue.wf_enqueue hwf new)
              (by rw [Queue.wedged_enqueue hwf, hw])] at hx
            exact absurd hx List.not_mem_nil
        | false =>
            rw [Queue.nodes_enqueue hwf hw] at hx
            rcases List.mem_append.mp hx with hx | hx
            · exact Or.inl ⟨x, hx, rfl, rfl⟩
            · obtain rfl := List.mem_singleton.mp hx
              subst hnew
              exact Or.inr ⟨rfl, rfl⟩
      obtain ⟨-, -, ⟨-, hnil, -⟩ | ⟨head, rest, hcons, hcases⟩⟩ :=
        checkAndAckHead_spec (Queue.wf_enqueue hwf new) hr
      · intro y hy
        change y ∈ r.1.nodes at hy
        rw [hnil] at hy
        exact absurd hy List.not_mem_nil
      · rw [hcons] at hsorted
        intro y hy
        change y ∈ r.1.nodes at hy
        rcases hcases with ⟨-, hnodes, -⟩ | ⟨-, hnodes, -⟩
        · rw [hnodes] at hy
          rcases List.mem_cons.mp hy with rfl | hy
          · exact hsorted head List.mem_cons_self
          · exact hsorted y (List.mem_cons_of_mem _ hy)
        · rw [hnodes] at hy
          exact hsorted y hy

/-- What an ACK or a READY leaves in a queue was there. -/
theorem Handles.old_nodes {cfg : Cfg n} {p : Fin n} {fresh : Nat} {x x' : ViewProc n}
    {pk : Packet n} {events : List (Event n)} {issued : Option (Issued n)}
    (h : Handles cfg p fresh x pk x' events issued) (hnone : pk.msg.body = none) :
    ∀ y ∈ x'.queue, ∃ z ∈ x.queue, z.mid = y.mid ∧ z.buffer = y.buffer := by
  have hcounted : ∀ {uid : UInt32}, ∀ y ∈ updateFirst (fun y => y.uid = uid)
      (fun y => { y with ackCount := y.ackCount + 1 }) x.queue,
      ∃ z ∈ x.queue, z.mid = y.mid ∧ z.buffer = y.buffer := by
    intro uid y hy
    obtain ⟨z, hz, rfl | rfl⟩ := mem_updateFirst hy
    · exact ⟨y, hz, rfl, rfl⟩
    · exact ⟨z, hz, rfl, rfl⟩
  intro y hy
  cases h with
  | issue message hmsg => exact ⟨y, hy, rfl, rfl⟩
  | ackMiss pid uid hmsg hmiss => exact ⟨y, hy, rfl, rfl⟩
  | ackCount pid uid z hmsg hsome hcount => exact hcounted y hy
  | ackReady pid uid z hmsg hsome hcount => exact hcounted y hy
  | ready uid hmsg => exact ⟨y, List.mem_of_mem_eraseP hy, rfl, rfl⟩
  | hang uid pid port stamp len hmsg => rw [hmsg] at hnone; cases hnone
  | lose uid pid port stamp len body hmsg hw => rw [hmsg] at hnone; cases hnone
  | enqueueAck uid pid port stamp len body buffer head rest hmsg hw hins hf =>
      rw [hmsg] at hnone
      cases hnone
  | enqueueQuiet uid pid port stamp len body buffer head rest hmsg hw hins hf =>
      rw [hmsg] at hnone
      cases hnone

/-- Where a handler's nodes come from. -/
theorem handleClient_nodes {cfg : Cfg n} {p : Fin n} {fresh : Nat} {proc : Proc n}
    {pk : Packet n} {got : Nat} {stack : Bytes} {o : Outcome n} (hs : proc.Sound)
    (h : handleClient cfg p fresh proc pk got stack = some o) :
    ∀ y ∈ o.proc.queue.nodes, (∃ x ∈ proc.queue.nodes, x.mid = y.mid ∧ x.buffer = y.buffer) ∨
      ∃ uid pid port stamp len body, pk.msg = .broad uid pid port stamp len body ∧
        y.mid = pk.mid ∧ y.buffer = (body.take got ++ stack).take len := by
  intro y hy
  cases hbody : pk.msg.body with
  | none =>
      have hx := (handleClient_spec hs h).1
      exact Or.inl (hx.old_nodes hbody y hy)
  | some body =>
      cases hmsg : pk.msg with
      | broad uid pid port stamp len body =>
          simp only [handleClient, hmsg] at h
          rcases handleBroadcast_nodes hs h y hy with hold | ⟨hmid, hbuffer⟩
          · exact Or.inl hold
          · exact Or.inr ⟨uid, pid, port, stamp, len, body, rfl, hmid, hbuffer⟩
      | _ =>
          rw [hmsg] at hbody
          cases hbody

/-! ## Every copy is of the buffer that was issued -/

/-- A BROAD brings the length of the issued buffer, and all but its last five bytes. -/
def Packet.Stored (bs : List Bytes) (pk : Packet n) : Prop :=
  match pk.msg with
  | .broad _ _ _ _ len body =>
      ∃ b, bs[pk.mid]? = some b ∧ len = Decimal.cut 6 b.length ∧ body = b.take (b.length - 5)
  | _ => True

def Holds (ok : Nat → Nat → Bytes → Prop) (bs : List Bytes) (mid : Nat) (buffer : Bytes) : Prop :=
  ∃ b, bs[mid]? = some b ∧ TextOf ok b buffer

def Out.Stored (ok : Nat → Nat → Bytes → Prop) (bs : List Bytes) : Out n → Prop
  | .send pk => pk.Stored bs
  | .write mid buffer => Holds ok bs mid buffer
  | .hang _ => True
  | .overrun _ => True

structure Stored (ok : Nat → Nat → Bytes → Prop) (bs : List Bytes) (s : State n) : Prop where
  length : bs.length = s.issued.length
  carries : Carries (Packet.Stored bs) (Out.Stored ok bs) s.view
  queue : ∀ p, ∀ y ∈ (s.procs p).queue.nodes, Holds ok bs y.mid y.buffer
  trace : ∀ p mid buffer, .wrote p mid buffer ∈ s.trace → Holds ok bs mid buffer

section mono

variable {ok : Nat → Nat → Bytes → Prop} {bs more : List Bytes}

theorem Holds.mono {mid : Nat} {buffer : Bytes} (h : Holds ok bs mid buffer) :
    Holds ok (bs ++ more) mid buffer := by
  obtain ⟨b, hb, htext⟩ := h
  exact ⟨b, getElem?_append_of_eq_some hb, htext⟩

theorem Packet.Stored.mono {pk : Packet n} (h : pk.Stored bs) : pk.Stored (bs ++ more) := by
  unfold Packet.Stored at *
  cases hmsg : pk.msg with
  | broad uid pid port stamp len body =>
      rw [hmsg] at h
      obtain ⟨b, hb, hrest⟩ := h
      exact ⟨b, getElem?_append_of_eq_some hb, hrest⟩
  | _ => trivial

theorem Out.Stored.mono {out : Out n} (h : out.Stored ok bs) : out.Stored ok (bs ++ more) := by
  cases out with
  | send pk => exact Packet.Stored.mono h
  | write mid buffer => exact Holds.mono h
  | hang mid | overrun mid => trivial

end mono

theorem init_stored (ok : Nat → Nat → Bytes → Prop) : Stored ok [] (init : State n) where
  length := rfl
  carries := carries_init
  queue p y hy := by
    simp [init, Queue.nodes_empty] at hy
  trace p mid buffer h := absurd h List.not_mem_nil

section step

variable {cfg : Cfg n} {ok : Nat → Nat → Bytes → Prop} {bs : List Bytes} {s s' : State n}
  {a : Act n}

theorem issuedBuffer_accept {p : Fin n} {k got : Nat} {stack : Bytes} {pk : Packet n}
    (hoff : s.offered p k = some pk) :
    issuedBuffer s (.accept p k got stack) =
      match pk.msg with
      | .issue message => [issueBuffer message]
      | _ => [] := by
  obtain ⟨src, dst, msg, mid⟩ := pk
  cases msg <;> simp only [issuedBuffer, hoff]

/-- What a handler still has to do concerns what its connection brought, what its queue
holds, and the message it issues. -/
theorem Stored.pending (hs : Stored ok bs s) {p : Fin n} {k got : Nat} {stack : Bytes}
    {pk : Packet n} (hoff : s.offered p k = some pk) {x : ViewProc n} {events : List (Event n)}
    {issued : Option (Issued n)}
    (h : Handles cfg p s.issued.length (s.view.procs p) pk x events issued) :
    ∀ out ∈ x.pending, out.Stored ok (bs ++ issuedBuffer s (.accept p k got stack)) := by
  have hidle : (s.view.procs p).pending = [] := (State.offered_eq_some.mp hoff).1
  intro out hout
  cases h with
  | issue message hmsg =>
      rcases mem_totalBroadcast hout with ⟨-, rfl⟩ | hout
      · trivial
      obtain ⟨dst, rfl⟩ := mem_sendAll hout
      refine ⟨issueBuffer message, ?_, rfl, ?_⟩
      · have hnew : issuedBuffer s (.accept p k got stack) = [issueBuffer message] := by
          rw [issuedBuffer_accept hoff, hmsg]
        rw [hnew]
        show (bs ++ [issueBuffer message])[s.issued.length]? = _
        rw [← hs.length, List.getElem?_concat_length]
      · show ((issueBuffer message).take (issueBuffer message).length).take _ = _
        rw [List.take_length]
        rfl
  | hang uid pid port stamp len hmsg =>
      obtain rfl := List.mem_singleton.mp hout
      trivial
  | enqueueAck uid pid port stamp len body buffer head rest hmsg hw hins hf =>
      obtain rfl := List.mem_singleton.mp hout
      trivial
  | ackReady pid uid y hmsg hsome hcount =>
      rcases List.mem_append.mp hout with hout | hout
      · obtain ⟨dst, rfl⟩ := mem_sendAll hout
        trivial
      · obtain rfl := List.mem_singleton.mp hout
        exact (hs.queue p y (List.mem_of_find?_eq_some hsome)).mono
  | lose uid pid port stamp len body hmsg hw => exact absurd hout List.not_mem_nil
  | enqueueQuiet uid pid port stamp len body buffer head rest hmsg hw hins hf =>
      exact absurd hout List.not_mem_nil
  | ackMiss pid uid hmsg hnone => exact absurd (hidle ▸ hout) List.not_mem_nil
  | ackCount pid uid y hmsg hsome hcount => exact absurd (hidle ▸ hout) List.not_mem_nil
  | ready uid hmsg => exact absurd (hidle ▸ hout) List.not_mem_nil

theorem Handles.length_issued {p : Fin n} {k got : Nat} {stack : Bytes} {pk : Packet n}
    (hoff : s.offered p k = some pk) {fresh : Nat} {v x : ViewProc n} {events : List (Event n)}
    {issued : Option (Issued n)} (h : Handles cfg p fresh v pk x events issued) :
    (issuedBuffer s (.accept p k got stack)).length = issued.toList.length := by
  rw [issuedBuffer_accept hoff]
  cases h <;> simp [*]

/-- A step that is not `accept` issues nothing and leaves all queues alone. -/
theorem quiet_of_not_accept (hview : ViewStep cfg s.view a s'.view)
    (hnot : ∀ p k got stack, a ≠ .accept p k got stack) :
    issuedBuffer s a = [] ∧ s'.issued = s.issued ∧
      ∀ p, (s'.procs p).queue.nodes = (s.procs p).queue.nodes := by
  rcases hview.accept_or_quiet with ⟨p, k, got, stack, pk, x, events, issued, ha, -⟩ |
    ⟨hissued, hqueue, -⟩
  · exact absurd ha (hnot p k got stack)
  · refine ⟨?_, hissued, hqueue⟩
    cases a with
    | accept p k got stack => exact absurd rfl (hnot p k got stack)
    | _ => rfl

/-- A write is of a buffer that was pending. -/
theorem ViewStep.wrote {v v' : View n} (h : ViewStep cfg v a v') {p : Fin n} {mid : Nat}
    {buffer : Bytes} (hw : .wrote p mid buffer ∈ v'.trace) :
    .wrote p mid buffer ∈ v.trace ∨ .write mid buffer ∈ (v.procs p).pending := by
  obtain ⟨events, htrace, ⟨-, hnot⟩ | hmove⟩ := h.local_cases p
  · rw [htrace] at hw
    exact (List.mem_append.mp hw).imp_right fun he => (hnot (.wrote p mid buffer) he rfl).elim
  · rw [htrace] at hw
    refine (List.mem_append.mp hw).imp_right fun he => ?_
    generalize v'.procs p = x at hmove
    cases hmove with
    | handles pk x events issued hidle hpk hdst hx => cases hx <;> simp at he
    | writes mid' buffer' rest hp =>
        obtain ⟨-, rfl, rfl⟩ := Event.wrote.inj (List.mem_singleton.mp he)
        rw [hp]
        exact List.mem_cons_self
    | _ => simp at he

/-- Every step keeps the copies. -/
theorem Stored.step (hs : Stored ok bs s) (hsound : s.Sound) (hstep : step cfg s a = some s')
    (hgot : Receives ok s a s') : Stored ok (bs ++ issuedBuffer s a) s' := by
  obtain ⟨hview, -⟩ := step_view hsound hstep
  have hcarries : Carries (Packet.Stored (bs ++ issuedBuffer s a))
      (Out.Stored ok (bs ++ issuedBuffer s a)) s'.view := by
    have hold : Carries (Packet.Stored (bs ++ issuedBuffer s a))
        (Out.Stored ok (bs ++ issuedBuffer s a)) s.view :=
      ⟨fun pk hpk => (hs.carries.net pk hpk).mono,
        fun p out hout => (hs.carries.pending p out hout).mono⟩
    refine hold.step hview (fun pk h => h) (fun p message _ => trivial) ?_
    intro p k got stack ha pk hk hdst hidle x events issued hx
    subst ha
    exact hs.pending (State.offered_eq_some.mpr ⟨hidle, hk, hdst⟩) hx
  have htrace : ∀ p mid buffer, .wrote p mid buffer ∈ s'.trace →
      Holds ok (bs ++ issuedBuffer s a) mid buffer := by
    intro p mid buffer hw
    rcases hview.wrote hw with hw | hw
    · exact (hs.trace p mid buffer hw).mono
    · exact Holds.mono (hs.carries.pending p _ hw)
  by_cases hacc : ∃ p k got stack, a = .accept p k got stack
  · obtain ⟨p, k, got, stack, rfl⟩ := hacc
    simp only [Tob.step, Option.bind_eq_some_iff, Option.map_eq_some_iff] at hstep
    obtain ⟨pk, hoff, o, ho, rfl⟩ := hstep
    obtain ⟨-, hk, -⟩ := State.offered_eq_some.mp hoff
    obtain ⟨hx, -⟩ := handleClient_spec (hsound p) ho
    refine ⟨?_, hcarries, fun q y hy => ?_, htrace⟩
    · show _ = (s.issued ++ o.issued.toList).length
      rw [List.length_append, List.length_append, hs.length, hx.length_issued hoff]
    · by_cases hq : q = p
      · subst hq
        simp only [State.handled, Function.update_self] at hy
        rcases handleClient_nodes (hsound q) ho y hy with ⟨z, hz, hmid, hbuffer⟩ |
          ⟨uid, pid, port, stamp, len, body, hmsg, hmid, hbuffer⟩
        · rw [← hmid, ← hbuffer]
          exact (hs.queue q z hz).mono
        · -- the node of the BROAD
          have hpk := hs.carries.net pk (List.mem_of_getElem? hk)
          unfold Packet.Stored at hpk
          rw [hmsg] at hpk
          obtain ⟨b, hb, rfl, rfl⟩ := hpk
          have hok := hgot pk hk (b.take (b.length - 5)) (by rw [hmsg]; rfl)
          rw [List.length_take, Nat.min_eq_left (Nat.sub_le _ _)] at hok
          rw [hmid]
          exact ⟨b, getElem?_append_of_eq_some hb, got, stack, hok, hbuffer⟩
      · simp only [State.handled, Function.update_of_ne hq] at hy
        exact (hs.queue q y hy).mono
  · obtain ⟨hnone, hissued, hnodes⟩ :=
      quiet_of_not_accept hview fun p k got stack h => hacc ⟨p, k, got, stack, h⟩
    refine ⟨?_, hcarries, fun p y hy => ?_, htrace⟩
    · rw [hnone, List.append_nil, hs.length, hissued]
    · rw [hnodes p] at hy
      exact (hs.queue p y hy).mono

end step

/-! ## Runs -/

/-- Along a run every copy is of the buffer that the run issued. -/
theorem exec_stored {cfg : Cfg n} {ok : Nat → Nat → Bytes → Prop} {bs : List Bytes} {s t : State n}
    {as : List (Act n)} (hs : Stored ok bs s) (hsound : s.Sound)
    (hrun : (system cfg).exec s as = some t) (hgot : (system cfg).Meets (Receives ok) s as) :
    Stored ok (bs ++ issuedBuffers cfg s as) t := by
  induction as generalizing s bs with
  | nil =>
      obtain rfl : s = t := Option.some.inj hrun
      rw [issuedBuffers, List.append_nil]
      exact hs
  | cons a rest ih =>
      obtain ⟨s', hstep, -, hrest⟩ := System.runVia_cons_eq_some.mp hrun
      change step cfg s a = some s' at hstep
      obtain ⟨hhere, hmeets⟩ := hgot s' hstep
      have hnext := ih (hs.step hsound hstep hhere) (step_view hsound hstep).2 hrest hmeets
      rw [issuedBuffers, hstep, ← List.append_assoc]
      exact hnext

/-- The texts of the file stand there in the order of the writes. -/
theorem fileContents_eq {t : List (Event n)} (hnodup : (writes t).Nodup)
    (holds : Nat → Bytes → Prop) (h : ∀ p mid buffer, .wrote p mid buffer ∈ t → holds mid buffer) :
    ∃ text : Nat → Bytes, fileContents t = (writes t).flatMap text ∧
      ∀ m ∈ writes t, holds m (text m) := by
  induction t using List.reverseRec with
  | nil => exact ⟨fun _ => [], rfl, fun m hm => absurd hm List.not_mem_nil⟩
  | append_singleton t e ih =>
      rw [writes_append] at hnodup
      obtain ⟨text, htext, hall⟩ := ih (List.nodup_append.mp hnodup).1
        fun p mid buffer he => h p mid buffer (List.mem_append_left _ he)
      have hfile : fileContents (t ++ [e]) = fileContents t ++ fileContents [e] :=
        List.flatMap_append
      rw [hfile, writes_append, htext]
      cases e with
      | wrote p m buffer =>
          refine ⟨Function.update text m buffer, ?_, ?_⟩
          · -- the other messages are other ones
            have hne : ∀ k ∈ writes t, Function.update text m buffer k = text k := fun k hk =>
              Function.update_of_ne
                ((List.nodup_append.mp hnodup).2.2 k hk m List.mem_cons_self) _ _
            show (writes t).flatMap text ++ (buffer ++ []) = (writes t ++ [m]).flatMap _
            rw [List.flatMap_append, List.flatMap_congr hne, List.flatMap_singleton,
              Function.update_self, List.append_nil]
          · intro k hk
            rcases List.mem_append.mp hk with hk | hk
            · rw [Function.update_of_ne
                ((List.nodup_append.mp hnodup).2.2 k hk m List.mem_cons_self)]
              exact hall k hk
            · obtain rfl := List.mem_singleton.mp hk
              rw [Function.update_self]
              exact h p k buffer (List.mem_append_right _ List.mem_cons_self)
      | _ =>
          refine ⟨text, ?_, fun k hk => hall k ?_⟩
          · simp [fileContents, writes]
          · simpa [writes] using hk

/-- **What stands in the shared file.** Along any run with distinct uids, whatever is
lost and in whatever order messages are handled, the file is a sequence of texts, one
for each written message in the order of the writes. The text of a message is what one
`recv` took of the issued buffer without its last five bytes, followed by bytes of the
stack, cut to the length in the length field. Each text goes out in one piece here; one
that stdio hands over in several calls may be split by another process's, whose mutex is
its own. -/
theorem file_contents (cfg : Cfg n) (ok : Nat → Nat → Bytes → Prop) {as : List (Act n)}
    {s : State n} (hrun : (system cfg).exec init as = some s)
    (hgot : (system cfg).Meets (Receives ok) init as)
    (hu : UidsDistinct s.issued) :
    (writes s.trace).Nodup ∧ ∃ text : Nat → Bytes,
      fileContents s.trace = (writes s.trace).flatMap text ∧
      ∀ m ∈ writes s.trace,
        ∃ b, (issuedBuffers cfg init as)[m]? = some b ∧ TextOf ok b (text m) := by
  have hreach : (system cfg).Reachable s := System.reachable_of_exec hrun
  have hnodup : (writes s.trace).Nodup := by
    rw [List.nodup_iff_count_le_one]
    intro m
    rw [count_writes]
    exact (reachable_ledgers hreach).2.wrote_le_one hu m
  have hstored := exec_stored (init_stored ok) init_sound hrun hgot
  rw [List.nil_append] at hstored
  exact ⟨hnodup, fileContents_eq hnodup (Holds ok (issuedBuffers cfg init as)) hstored.trace⟩

/-- Process 0 issues `hello1` with its terminator, seven bytes, and each `recv` takes the
two that are sent. -/
def writtenRun : List (Act 2) :=
  [.client 0 [104, 101, 108, 108, 111, 49], .accept 0 0 0 [], .perform 0, .perform 0,
    .accept 0 0 2 [88, 88, 88, 88, 88], .perform 0, .accept 1 0 2 [89, 89, 89, 89, 89], .perform 1,
    .accept 0 0 0 [], .accept 0 0 0 [], .perform 0, .perform 0, .perform 0]

/-- The file holds `he` and five bytes of the stack. -/
theorem written_file_contents :
    fileContents (endOf writtenRun).trace = [104, 101, 88, 88, 88, 88, 88] ∧
    ∃ text : Nat → Bytes, fileContents (endOf writtenRun).trace = [0].flatMap text ∧
      ∀ m ∈ [0], ∃ b, (issuedBuffers twoProcs init writtenRun)[m]? = some b ∧
        TextOf (fun got sent stack => got = sent ∧ 5 ≤ stack.length) b (text m) := by
  have h := (@file_contents 2 twoProcs (fun got sent stack => got = sent ∧ 5 ≤ stack.length)
    writtenRun (endOf writtenRun)
    (System.runVia_eq_some_endOf (by decide +kernel))
    (System.meets_of_runVia (fun _ _ _ => of_decide_eq_true) (by decide +kernel))
    (by decide +kernel)).2
  have hwrites : writes (endOf writtenRun).trace = [0] := by decide +kernel
  rw [hwrites] at h
  exact ⟨by decide +kernel, h⟩

end DistKv.Tob
