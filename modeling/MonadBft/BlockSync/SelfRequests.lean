/-
  MonadBft.BlockSync.SelfRequests — the node's own requests.

  A completed range is always delivered: its payloads are the ones its headers name
  (`fullBlocks_ok`). So a response of a peer never panics, whatever it holds
  (`handlePeerResponse_ok`). And the node's own requests do not touch those of the peers: the
  handlers that serve them answer nobody and leave the waiting requests alone (`SelfOnly`).
-/
import MonadBft.BlockSync.Handlers

namespace MonadBft.BlockSync

open Lib

variable {w : Wrapper} {bs : BlockSync} {r r' : BlockSync × List Command} {f : BlockSync → Result}

theorem andThen_ok (h : ∀ bs, ∃ r', f bs = .ok r') : ∃ r', andThen r f = .ok r' := by
  obtain ⟨r', hr'⟩ := h r.1
  exact ⟨_, by rw [andThen, hr']; rfl⟩

/-! ## No panic -/

theorem fullBlocks_ok {ch : SelfCompletedHeader} (h : ch.complete = true) : ∃ full, fullBlocks ch = .ok full := by
  refine mapM_ok ?_
  intro b hb
  obtain ⟨p, hp⟩ := Option.isSome_iff_exists.mp (List.all_eq_true.mp h b hb)
  refine ⟨⟨b.header, p, b.filled hp⟩, ?_⟩
  simp [hp, newFullBlock, b.filled hp]

theorem handleCompletedRanges_ok (w : Wrapper) (loop : Loop) (bs : BlockSync) :
    ∃ r, handleCompletedRanges w loop bs = .ok r := by
  refine foldlM_ok ?_ _
  intro e he acc
  rw [mem_shuffle] at he
  obtain ⟨full, hfull⟩ := fullBlocks_ok (List.mem_filter.mp he).2
  exact ⟨_, by rw [completeRange, hfull]; rfl⟩

theorem tryInitiatePayloadRequestsForSelf_ok (w : Wrapper) (bs : BlockSync) :
    ∃ r, tryInitiatePayloadRequestsForSelf w bs = .ok r :=
  andThen_ok (handleCompletedRanges_ok w .completedAfter)

theorem handlePeerResponse_ok (w : Wrapper) (bs : BlockSync) (sender : NodeId) (m : ResponseMessage) :
    ∃ r, handlePeerResponse w bs sender m = .ok r := by
  cases m with
  | headers hr =>
    simp only [handlePeerResponse, handleHeadersResponseForSelf]
    split
    · exact ⟨_, rfl⟩
    · have htry := fun r => andThen_ok (r := r) (tryInitiatePayloadRequestsForSelf_ok w)
      cases hr with
      | found range headers =>
        by_cases hv : verifyBlockHeaders range headers <;> simpa [hv] using htry _
      | notAvailable range => simpa using htry _
  | payload pr =>
    simp only [handlePeerResponse, handlePayloadResponseForSelf]
    split
    · exact ⟨_, rfl⟩
    · exact ⟨_, rfl⟩
    · have hrest : ∀ r, ∃ r', (do
          let r ← andThen r (handleCompletedRanges w .completed)
          andThen r (tryInitiatePayloadRequestsForSelf w)) = .ok r' := by
        intro r
        obtain ⟨r₁, hr₁⟩ := andThen_ok (r := r) (handleCompletedRanges_ok w .completed)
        obtain ⟨r₂, hr₂⟩ := andThen_ok (r := r₁) (tryInitiatePayloadRequestsForSelf_ok w)
        exact ⟨r₂, by rw [hr₁]; exact hr₂⟩
      cases pr with
      | found body => exact hrest _
      | notAvailable id => simpa using hrest _

/-! ## Nothing is sent to the peers that wait -/

/-- The peers' requests for headers are left alone and nobody is answered. -/
structure SelfOnly (bs : BlockSync) (r : BlockSync × List Command) : Prop where
  headersRequests : r.1.headersRequests = bs.headersRequests
  silent : ∀ peer m, Command.sendResponse peer m ∉ r.2

namespace SelfOnly

theorem refl (bs : BlockSync) : SelfOnly bs (bs, []) := ⟨rfl, by simp⟩

theorem trans {cmds cmds' : List Command} {bs₁ bs₂ : BlockSync} (h : SelfOnly bs (bs₁, cmds))
    (h' : SelfOnly bs₁ (bs₂, cmds')) : SelfOnly bs (bs₂, cmds ++ cmds') := by
  refine ⟨h'.headersRequests.trans h.headersRequests, ?_⟩
  intro peer m hm
  rcases List.mem_append.mp hm with hm | hm
  · exact h.silent peer m hm
  · exact h'.silent peer m hm

theorem andThen (h : SelfOnly bs r) (hf : ∀ bs r', f bs = .ok r' → SelfOnly bs r')
    (hr : andThen r f = .ok r') : SelfOnly bs r' := by
  obtain ⟨r₁, hr₁, hr'⟩ := bind_eq_ok.mp hr
  obtain rfl := pure_eq_ok.mp hr'
  exact h.trans (hf _ _ hr₁)

theorem handleCompletedRanges {loop : Loop} (hr : handleCompletedRanges w loop bs = .ok r) : SelfOnly bs r := by
  refine foldlM_invariant ?_ hr (refl bs)
  intro e _ acc acc' hacc h
  obtain ⟨full, _, hp⟩ := bind_eq_ok.mp hacc
  obtain rfl := pure_eq_ok.mp hp
  exact h.trans ⟨rfl, by simp⟩

theorem hydrate {e : BodyId × Option SelfRequest} (h : SelfOnly bs r) : SelfOnly bs (hydrate w r e) := by
  unfold BlockSync.hydrate
  split
  · exact h
  · exact h.trans ⟨rfl, by split <;> simp⟩

theorem initiate {id : BodyId} (h : SelfOnly bs r) : SelfOnly bs (initiate r id) := by
  unfold BlockSync.initiate
  split
  · exact h.trans ⟨rfl, by simp⟩
  · exact h

theorem tryInitiatePayloadRequestsForSelf (hr : tryInitiatePayloadRequestsForSelf w bs = .ok r) : SelfOnly bs r := by
  refine andThen ?_ (fun _ _ h => handleCompletedRanges h) hr
  refine foldl_invariant (fun _ _ _ h => h.initiate) ?_
  exact foldl_invariant (fun _ _ _ h => h.hydrate) (refl bs)

theorem pickPeer {bs' : Option NodeId → BlockSync} {request : RequestMessage} (hr : (do
      let peer ← pickPeer w bs
      pure (bs' peer, sendTo request peer) : Result) = .ok r)
    (hb : ∀ peer, (bs' peer).headersRequests = bs.headersRequests) : SelfOnly bs r := by
  obtain ⟨peer, _, hp⟩ := bind_eq_ok.mp hr
  obtain rfl := pure_eq_ok.mp hp
  exact ⟨hb peer, by cases peer <;> simp [sendTo]⟩

variable {sender : Option NodeId}

theorem handleHeadersResponseForSelf {hr : HeadersResponse}
    (h : handleHeadersResponseForSelf w bs sender hr = .ok r) : SelfOnly bs r := by
  unfold BlockSync.handleHeadersResponseForSelf at h
  split at h
  · obtain rfl := Except.ok.inj h
    exact refl bs
  · obtain ⟨r₁, hr₁, hrest⟩ := bind_eq_ok.mp h
    refine andThen ?_ (fun _ _ h => tryInitiatePayloadRequestsForSelf h) hrest
    cases hr with
    | found range headers =>
      simp only at hr₁
      split at hr₁
      · obtain rfl := pure_eq_ok.mp hr₁
        exact ⟨rfl, by split <;> simp⟩
      · obtain rfl := pure_eq_ok.mp hr₁
        exact refl bs
    | notAvailable range =>
      simp only at hr₁
      split at hr₁
      · exact pickPeer hr₁ fun _ => rfl
      · obtain rfl := pure_eq_ok.mp hr₁
        exact refl bs

theorem handlePayloadResponseForSelf {pr : BodyResponse}
    (h : handlePayloadResponseForSelf w bs sender pr = .ok r) : SelfOnly bs r := by
  unfold BlockSync.handlePayloadResponseForSelf at h
  split at h
  · obtain rfl := Except.ok.inj h
    exact refl bs
  · obtain rfl := Except.ok.inj h
    exact refl bs
  · obtain ⟨r₁, hr₁, hrest⟩ := bind_eq_ok.mp h
    obtain ⟨r₂, hr₂, hrest⟩ := bind_eq_ok.mp hrest
    refine andThen (andThen ?_ (fun _ _ h => handleCompletedRanges h) hr₂)
      (fun _ _ h => tryInitiatePayloadRequestsForSelf h) hrest
    cases pr with
    | found body =>
      obtain rfl := pure_eq_ok.mp hr₁
      exact ⟨rfl, by split <;> simp⟩
    | notAvailable id =>
      simp only at hr₁
      split at hr₁
      · exact pickPeer hr₁ fun _ => rfl
      · obtain rfl := pure_eq_ok.mp hr₁
        exact refl bs

theorem handlePeerResponse {sender : NodeId} {m : ResponseMessage}
    (h : handlePeerResponse w bs sender m = .ok r) : SelfOnly bs r := by
  cases m with
  | headers hr => exact handleHeadersResponseForSelf h
  | payload pr => exact handlePayloadResponseForSelf h

theorem handleTimeout {m : RequestMessage} (h : handleTimeout w bs m = .ok r) : SelfOnly bs r := by
  cases m with
  | headers range =>
    simp only [BlockSync.handleTimeout] at h
    split at h
    · obtain rfl := Except.ok.inj h
      exact refl bs
    · exact pickPeer h fun _ => rfl
  | payload id =>
    simp only [BlockSync.handleTimeout] at h
    split at h
    · exact pickPeer h fun _ => rfl
    · obtain rfl := Except.ok.inj h
      exact refl bs

theorem handleSelfRequest (bs : BlockSync) (requester : SelfRequester) (range : BlockRange) :
    SelfOnly bs (handleSelfRequest bs requester range) := by
  have hmode : (bs.switchMode requester).headersRequests = bs.headersRequests := by
    unfold switchMode
    split <;> rfl
  unfold BlockSync.handleSelfRequest
  simp only
  split_ifs
  · exact refl bs
  · exact ⟨hmode, by simp⟩
  · exact ⟨hmode, by simp⟩

end SelfOnly

end MonadBft.BlockSync
