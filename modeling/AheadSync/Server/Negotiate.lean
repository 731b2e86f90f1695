import AheadSync.Core.Channels
import AheadSync.Server.Live
import AheadSync.Server.Push

/-! Negotiating a live subscription (`server/src/live.rs`): the acknowledgement gives a head for each
    requested channel, and the client holds it against its request. -/

namespace AheadSync

/-- `decode_subscribe`. -/
def decodeSubscribe (j : Json) (text : String) : Except Failure SubscribeRequest :=
  (SubscribeRequest.decode j text).mapError Failure.requestInvalid

/-- The head of each channel. -/
def headsOf (head : String → Except Failure ℕ) (channels : List String) :
    Except Failure (SortedMap String ℕ) :=
  channels.foldlM (fun heads channel => do return heads.insert channel (← head channel)) .empty

/-- `negotiate`: the text of the acknowledgement, and the accepted subscription. -/
def Config.negotiate (config : Config) (j : Json) (owner text : String)
    (head : String → Except Failure ℕ) : Except Failure (String × Negotiation) := do
  principal owner
  let request ← decodeSubscribe j text
  config.checkDeclared request.models
  let heads ← headsOf head request.channels
  let ack ← (SubscriptionAck.make heads).mapError Failure.internal
  let response ← (ack.encode j).mapError Failure.internal
  return (response, ⟨heads, request.models⟩)

section Negotiate
variable {head : String → Except Failure ℕ}

/-- A head is given for each channel and for no other. -/
theorem mem_headsOf {channels : List String} {heads : SortedMap String ℕ}
    (h : headsOf head channels = .ok heads) (c : String) : c ∈ heads.keys ↔ c ∈ channels := by
  have hinsert : ∀ (m : SortedMap String ℕ) (k : String) (n : ℕ),
      c ∈ (m.insert k n).keys ↔ c = k ∨ c ∈ m.keys := by
    intro m k n
    rw [← not_iff_not, not_or, ← SortedMap.lookup_eq_none_iff, ← SortedMap.lookup_eq_none_iff,
      SortedMap.lookup_insert]
    split <;> simp_all
  suffices hall : ∀ (channels : List String) (acc : SortedMap String ℕ),
      channels.foldlM (fun heads channel => do return heads.insert channel (← head channel)) acc =
        .ok heads → (c ∈ heads.keys ↔ c ∈ channels ∨ c ∈ acc.keys) by
    rw [hall channels .empty h]
    simp [SortedMap.keys, SortedMap.empty]
  intro channels
  induction channels with
  | nil =>
    intro acc hacc
    obtain rfl : acc = heads := by simpa using hacc
    simp
  | cons k channels ih =>
    intro acc hacc
    simp only [List.foldlM_cons, Except.bind_eq_ok, Except.pure_eq_ok] at hacc
    obtain ⟨_, ⟨n, -, rfl⟩, hrest⟩ := hacc
    rw [ih _ hrest, hinsert, List.mem_cons]
    tauto

/-- What the server answers a request that was read back: the acknowledgement of its channels. -/
theorem negotiate_ok {config : Config} {j : Json} {owner response : String} {n : Negotiation}
    {channels : List String} {models : Models} {request : SubscribeRequest}
    (h : SubscribeRequest.make channels models = .ok request) (hj : j.Rereads request.toValue)
    (hn : config.negotiate j owner (j.text request.toValue) head = .ok (response, n)) :
    (∀ c, c ∈ n.heads.keys ↔ c ∈ request.channels) ∧
      SubscriptionAck.make n.heads = .ok ⟨n.heads⟩ ∧
      response = j.text (SubscriptionAck.toValue ⟨n.heads⟩) := by
  have hread : decodeSubscribe j (j.text request.toValue) = .ok request := by
    rw [decodeSubscribe, SubscribeRequest.decode, show j.parse _ = .ok request.toValue from hj,
      Except.ok_bind, SubscribeRequest.ofValue_toValue h]
    rfl
  simp only [Config.negotiate, hread, Except.ok_bind, Except.bind_eq_ok, Except.mapError_eq_ok,
    Except.pure_eq_ok, Prod.mk.injEq] at hn
  obtain ⟨-, -, -, -, heads, hheads, ack, hack, _, hresponse, rfl, rfl⟩ := hn
  obtain ⟨hc, rfl⟩ := SubscriptionAck.make_eq_ok.mp hack
  exact ⟨mem_headsOf hheads, hack, (Except.ok.inj hresponse).symm⟩

/-- A client recognizes every truthful acknowledgement of its request, the server's own among them,
    and no other, exactly when no two of the channels part where the orders of code units and of
    characters differ. -/
theorem acknowledgement_recognized {channels : List String} {models : Models}
    {request : SubscribeRequest} (h : SubscribeRequest.make channels models = .ok request) :
    ((∀ (j : Json) (config : Config) (owner response : String) (head : String → Except Failure ℕ)
        (n : Negotiation), j.Rereads request.toValue →
        config.negotiate j owner (j.text request.toValue) head = .ok (response, n) →
        j.Rereads (SubscriptionAck.toValue ⟨n.heads⟩) →
        ∃ ack, SubscriptionAck.decode j response = .ok ack ∧ ack.confirms request = true) ∧
      ∀ ack : SubscriptionAck, ack.confirms request = true ↔
        ∀ c, c ∈ ack.cursors.keys ↔ c ∈ request.channels) ↔ Orderly channels := by
  rw [← confirms_iff h, and_iff_right_iff_imp]
  intro hall j config owner response head n hj hn hack
  obtain ⟨hkeys, hmake, rfl⟩ := negotiate_ok h hj hn
  exact ⟨⟨n.heads⟩, SubscriptionAck.decode_text ⟨_, hmake⟩ hack, (hall _).mpr hkeys⟩

/-- A frame for two plain channels is acknowledged. -/
theorem acknowledgement_recognized_plain :
    SubscriptionAck.confirms ⟨.ofList [("a", 0), ("b", 7)]⟩
      ⟨["a", "b"], .ofList [("Item", 1)]⟩ = true := by
  have hplain : Orderly ["b", "a"] := by
    rintro a - b hb ⟨p, x, s, y, t, -, hy, -, -, hbig⟩
    have hmem : y ∈ b.toList := hy ▸ by simp
    rcases List.mem_cons.mp hb with rfl | hb
    · obtain rfl : y = 'b' := by simpa using hmem
      exact absurd hbig (by decide)
    · obtain rfl : b = "a" := by simpa using hb
      obtain rfl : y = 'a' := by simpa using hmem
      exact absurd hbig (by decide)
  have hmake : SubscribeRequest.make ["b", "a"] (.ofList [("Item", 1)]) =
      .ok ⟨["a", "b"], .ofList [("Item", 1)]⟩ := Except.eq_ok_of_toOption (by decide +kernel)
  refine (((acknowledgement_recognized hmake).mpr hplain).2 _).mpr fun c => ?_
  rw [show (SortedMap.ofList [("a", 0), ("b", 7)]).keys = ["a", "b"] by decide +kernel]

/-- A private-use character and one outside the basic plane: the truthful acknowledgement of both
    channels is not recognized. -/
theorem not_acknowledgement_recognized :
    ¬∀ (channels : List String) (models : Models) (request : SubscribeRequest),
      SubscribeRequest.make channels models = .ok request →
      (∀ (j : Json) (config : Config) (owner response : String) (head : String → Except Failure ℕ)
        (n : Negotiation), j.Rereads request.toValue →
        config.negotiate j owner (j.text request.toValue) head = .ok (response, n) →
        j.Rereads (SubscriptionAck.toValue ⟨n.heads⟩) →
        ∃ ack, SubscriptionAck.decode j response = .ok ack ∧ ack.confirms request = true) ∧
      ∀ ack : SubscriptionAck, ack.confirms request = true ↔
        ∀ c, c ∈ ack.cursors.keys ↔ c ∈ request.channels := by
  intro h
  have hmake : SubscribeRequest.make ["\uE000", "😀"] (.ofList [("Item", 1)]) =
      .ok ⟨["😀", "\uE000"], .ofList [("Item", 1)]⟩ :=
    Except.eq_ok_of_toOption (by decide +kernel)
  have horderly := (acknowledgement_recognized hmake).mp (h _ _ _ hmake)
  refine horderly "\uE000" (by simp) "😀" (by simp) ?_
  exact ⟨[], '\uE000', [], '😀', [], by decide, by decide, by decide, by decide, by decide⟩

end Negotiate

end AheadSync
