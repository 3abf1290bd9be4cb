import DistKv.Memcache.Fetch

/-!
# Requests and TCP segments

`handle_client` reads the operation, the header and the key with one `recv` each
and takes what it gets for all there is. Only the body of a set has a loop, and
that stops early. What a request does therefore depends on where the stream is
cut: cut behind its first byte, a set is a get.
-/

namespace DistKv.Memcache

open CText

/-- A request as the client sends it. -/
inductive ClientRequest
  | set (r : SetArgs)
  | get (key : Str)

namespace ClientRequest

def message : ClientRequest → List UInt8
  | .set r => r.message
  | .get key => encodeGet key

/-- The work item it asks for. -/
def node : ClientRequest → KvNode
  | .set r => r.node
  | .get key => (Request.get key).node

/-- The pieces of a message let its request through. -/
def ArrivesIn : ClientRequest → List Nat → Prop
  | .set r, pieces => r.Whole pieces
  | .get key, pieces => PlainKey key ∧ GetArrives key pieces

end ClientRequest

/-- The work item `handle_client` queues for a message in pieces, with all the memory
it asks for. -/
def queued (message : List UInt8) (pieces : List Nat) : Option KvNode :=
  match handleClient ⟨.cut message pieces, fun _ => true, false, []⟩ with
  | .ok (item, _) => some item.node
  | .error _ => none

theorem queued_eq_some {message : List UInt8} {pieces : List Nat} {node : KvNode} :
    queued message pieces = some node ↔ ∃ s', NodeRead false (.cut message pieces) node s' := by
  unfold queued
  refine ⟨?_, ?_⟩
  · intro h
    rcases hhandle : handleClient ⟨.cut message pieces, fun _ => true, false, []⟩ with
      _ | ⟨item, c'⟩
    · rw [hhandle] at h
      exact absurd h (by simp)
    · rw [hhandle] at h
      obtain rfl := Option.some.inj h
      exact ⟨_, (handleClient_eq_ok.mp hhandle).1⟩
  · rintro ⟨s', hread⟩
    rw [handleClient_of_read hread ⟨rfl, rfl, rfl, rfl⟩]

/-- A request makes its work item in the pieces that let it through, and in no others. -/
theorem queued_iff (req : ClientRequest) (pieces : List Nat) :
    queued req.message pieces = some req.node ↔ req.ArrivesIn pieces := by
  rw [queued_eq_some]
  cases req with
  | set r =>
      have hset := r.nodeRead_set false pieces []
      rw [List.append_nil] at hset
      exact hset.trans (and_iff_right rfl)
  | get key => exact nodeRead_get key false pieces

/-- Cut behind its first byte, a request is a get of what follows. -/
theorem queued_cut (req : ClientRequest) :
    queued req.message [0, 0] = some (Request.get ⟨[101], by decide⟩).node ∧
      queued req.message [0, 1] = some (Request.get ⟨[101, 116], by decide⟩).node := by
  cases req with
  | set r =>
      rw [ClientRequest.message, r.message_eq]
      exact ⟨rfl, rfl⟩
  | get key => exact ⟨rfl, rfl⟩

/-- **What a request does depends on the segments it comes in**: every request has two
cuts that make different work items, and makes its own exactly in the pieces that
let it through. -/
theorem segments_matter (req : ClientRequest) :
    (¬ ∀ pieces pieces', queued req.message pieces = queued req.message pieces') ∧
      ∀ pieces, queued req.message pieces = some req.node ↔ req.ArrivesIn pieces := by
  refine ⟨?_, queued_iff req⟩
  intro hsame
  obtain ⟨hfirst, hsecond⟩ := queued_cut req
  have hnode := hfirst.symm.trans ((hsame [0, 0] [0, 1]).trans hsecond)
  exact absurd hnode (by decide)

/-- The pieces that let a request through agree on it. -/
theorem queued_eq_of_arrivesIn {req : ClientRequest} {pieces pieces' : List Nat}
    (h : req.ArrivesIn pieces) (h' : req.ArrivesIn pieces') :
    queued req.message pieces = queued req.message pieces' :=
  ((queued_iff req pieces).mpr h).trans ((queued_iff req pieces').mpr h').symm

/-- `client get A`, with its first byte alone in a segment -/
theorem getA_depends_on_segments :
    ¬ ∀ (req : ClientRequest) pieces pieces',
      queued req.message pieces = queued req.message pieces' := by
  intro h
  have hsame := h (.get ⟨[65], by decide⟩) [0] []
  exact absurd hsame (by decide +kernel)

end DistKv.Memcache
