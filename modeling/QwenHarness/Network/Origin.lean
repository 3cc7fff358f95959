import Mathlib.Algebra.GroupWithZero.Nat
import Mathlib.Data.List.Chain
import QwenHarness.Network.Broker

/-!
# Redirects to another origin

A raw request carries what is meant for one server: tokens in its headers, codes and secrets in its
body. Where a redirect leads is chosen by the server that answers. The broker hands the same headers
and the same body on at every hop, so they stay with one origin exactly if every redirect that is
followed does.
-/

namespace QwenHarness.Network

/-! ## Origins -/

/-- Scheme, host and port, as they stand in the address of a web page. -/
def Url.origin : Url → Text
  | .web secure _ href =>
    let scheme := if secure then "https://".toList else "http://".toList
    let authority := (href.drop scheme.length).takeWhile (· ≠ '/')
    scheme ++ (authority.reverse.takeWhile (· ≠ '@')).reverse
  | .other _ _ href _ => href

/-- Both are addresses, of one origin. -/
def SameOrigin (env : Surroundings) (a b : Text) : Prop :=
  ∃ u v, env.parse a none = some u ∧ env.parse b none = some v ∧ u.origin = v.origin

section

variable {env : Surroundings} {policy : NetworkPolicy} {a b c : Text}

theorem SameOrigin.symm (h : SameOrigin env a b) : SameOrigin env b a := by
  obtain ⟨u, v, ha, hb, horigin⟩ := h
  exact ⟨v, u, hb, ha, horigin.symm⟩

theorem SameOrigin.trans (h : SameOrigin env a b) (h' : SameOrigin env b c) :
    SameOrigin env a c := by
  obtain ⟨u, v, ha, hb, horigin⟩ := h
  obtain ⟨v', w, hb', hc, horigin'⟩ := h'
  obtain rfl := Option.some.inj (hb.symm.trans hb')
  exact ⟨u, w, ha, hc, horigin.trans horigin'⟩

instance : Trans (SameOrigin env) (SameOrigin env) (SameOrigin env) := ⟨SameOrigin.trans⟩

/-- An address the check lets through has an origin. -/
theorem sameOrigin_self (h : passes env policy a = true) : SameOrigin env a a := by
  rw [passes] at h
  rcases hcheck : checkUrl env policy a with e | parsed
  · rw [hcheck] at h
    cases h
  · exact ⟨parsed, parsed, (checkUrl_eq_ok hcheck).1, (checkUrl_eq_ok hcheck).1, rfl⟩

end

/-! ## What goes where -/

/-- The headers and the body go to the origin of the request only. -/
def StaysHome (env : Surroundings) (request : OutboundRequest) (calls : List Call) : Prop :=
  ∀ call ∈ calls, call.headers ≠ [] ∨ call.body ≠ none → SameOrigin env request.url call.url

/-- Every redirect that is followed leads to the origin of the address that answered with it. -/
def RedirectsHome (env : Surroundings) (policy : NetworkPolicy) (request : OutboundRequest) :
    Prop :=
  ((redirects env request.call (policy.maxRedirects + 1) 0 request.url).takeWhile
    (passes env policy)).IsChain (SameOrigin env)

variable {env : Surroundings} {policy : NetworkPolicy}

/-- One step at a time, or seen from the first. -/
theorem isChain_sameOrigin_iff {a : Text} {urls : List Text}
    (hself : ∀ b ∈ a :: urls, SameOrigin env b b) :
    (a :: urls).IsChain (SameOrigin env) ↔ ∀ b ∈ a :: urls, SameOrigin env a b := by
  rw [List.isChain_iff_pairwise, List.pairwise_cons, List.forall_mem_cons]
  constructor
  · exact fun h ↦ ⟨hself a List.mem_cons_self, h.1⟩
  · exact fun h ↦ ⟨h.2, List.pairwise_of_forall_mem_list fun b hb c hc ↦
      (h.2 b hb).symm.trans (h.2 c hc)⟩

/-- **The headers and the body stay** with the origin of the request exactly if there are none, or
every redirect that is followed stays. -/
theorem staysHome_iff (env : Surroundings) (policy : NetworkPolicy) (request : OutboundRequest) :
    StaysHome env request (send env policy request).handed ↔
      (request.headers = [] ∧ request.body = none) ∨ RedirectsHome env policy request := by
  rw [StaysHome, RedirectsHome, send, handed_follow, List.forall_mem_map]
  set urls := (redirects env request.call (policy.maxRedirects + 1) 0 request.url).takeWhile
    (passes env policy) with hurls
  have hpass : ∀ b ∈ urls, SameOrigin env b b := fun b hb ↦
    sameOrigin_self (List.mem_takeWhile_imp hb)
  have hhead : ∀ a rest, urls = a :: rest → a = request.url := by
    intro a rest h
    rw [hurls, redirects, List.takeWhile_cons] at h
    split_ifs at h
    exact (List.cons.inj h).1.symm
  by_cases hnone : request.headers = [] ∧ request.body = none
  · refine iff_of_true (fun url _ h ↦ ?_) (.inl hnone)
    exact absurd h (not_or.mpr ⟨not_not.mpr hnone.1, not_not.mpr hnone.2⟩)
  · have hsome : request.headers ≠ [] ∨ request.body ≠ none := not_and_or.mp hnone
    rw [or_iff_right hnone]
    rcases hcase : urls with - | ⟨a, rest⟩
    · exact iff_of_true (fun url h ↦ absurd h List.not_mem_nil) .nil
    · rw [isChain_sameOrigin_iff (hcase ▸ hpass), hhead a rest hcase]
      exact ⟨fun h b hb ↦ h b hb hsome, fun h b hb _ ↦ h b hb⟩

/-! ### A server that redirects a token -/

section Redirected

local instance neZero : NeZero 256 := ⟨by decide⟩

private def homeUrl : Text :=
  ['h', 't', 't', 'p', 's', ':', '/', '/', '1', '.', '1', '.', '1', '.', '1', '/']

private def awayUrl : Text :=
  ['h', 't', 't', 'p', 's', ':', '/', '/', '8', '.', '8', '.', '8', '.', '8', '/']

private def tokenRequest : OutboundRequest :=
  ⟨"POST", homeUrl, [("authorization", "Bearer t")], none⟩

private def movedAnswers : Surroundings where
  parse text _ :=
    if text = homeUrl then some (.web true (.ipv4 ⟨1, 1, 1, 1⟩) homeUrl)
    else some (.web true (.ipv4 ⟨8, 8, 8, 8⟩) awayUrl)
  answer hop _ :=
    if hop = 0 then .ok ⟨307, fun _ ↦ some awayUrl, none, [], []⟩
    else .ok ⟨200, fun _ ↦ none, none, [], []⟩
  sanitize text _ := (text, false)

private theorem followed_tokenRequest :
    (redirects movedAnswers tokenRequest.call 6 0 homeUrl).takeWhile
      (passes movedAnswers defaultNetworkPolicy) = [homeUrl, awayUrl] := by decide

/-- **The token goes** where the server says. -/
theorem not_staysHome_tokenRequest : ¬ StaysHome movedAnswers tokenRequest
    (send movedAnswers defaultNetworkPolicy tokenRequest).handed := by
  have haway : tokenRequest.call awayUrl ∈
      (send movedAnswers defaultNetworkPolicy tokenRequest).handed := by
    rw [send, handed_follow]
    refine List.mem_map_of_mem ?_
    change awayUrl ∈ (redirects movedAnswers tokenRequest.call 6 0 homeUrl).takeWhile _
    rw [followed_tokenRequest]
    exact List.mem_cons_of_mem _ List.mem_cons_self
  intro h
  obtain ⟨u, v, hu, hv, horigin⟩ := h _ haway (.inl (List.cons_ne_nil _ _))
  obtain rfl : Url.web true (.ipv4 ⟨1, 1, 1, 1⟩) homeUrl = u := Option.some.inj hu
  obtain rfl : Url.web true (.ipv4 ⟨8, 8, 8, 8⟩) awayUrl = v := Option.some.inj hv
  exact absurd horigin (by decide)

end Redirected

end QwenHarness.Network
