/-
  KvEngine.Api.Concurrent
  ───────────────────────
  **Clients at the same time.**

  `AcceptLoop` gives every client a thread of its own, and all of them share the
  engine.  `Makes` says which call on it the thread of a client makes, and
  `Responds` which response it builds from the answer; the client of `/stats`,
  who asks for several figures in turn, is left out.

  The responses are those of the clients served one at a time, in an order in
  which nobody overtakes a client that had been answered before
  (`concurrent_clients`).
-/
import KvEngine.Api.Server
import KvEngine.Lib.OneShot

namespace KvEngine

open Lib

/-! ## §1. A scan by its views. -/

namespace Iterator

variable {tree : BPlusTree}

/-- However far it may go, the loop over an iterator goes equally far. -/
theorem scan_unique : ∀ {fuel fuel' : Nat} {it : Iterator}
    {r r' : List (Status × Bytes × Bytes) × Status},
    scan tree fuel it = some r → scan tree fuel' it = some r' → r = r' := by
  intro fuel
  induction fuel with
  | zero => intro _ _ _ _ h _; cases h
  | succ fuel ih =>
      intro fuel' it r r' h h'
      cases fuel' with
      | zero => cases h'
      | succ fuel' =>
          unfold scan at h h'
          simp only [Option.bind_eq_bind] at h h'
          obtain ⟨valid, hvalid, h⟩ := Option.bind_eq_some_iff.mp h
          rw [hvalid, Option.bind_some] at h'
          cases valid with
          | false => exact Option.some.inj (h.symm.trans h')
          | true =>
              obtain ⟨entry, hentry, h⟩ := Option.bind_eq_some_iff.mp h
              obtain ⟨next, hnext, h⟩ := Option.bind_eq_some_iff.mp h
              obtain ⟨⟨seen, last⟩, hrest, h⟩ := Option.bind_eq_some_iff.mp h
              rw [if_pos rfl, hentry, Option.bind_some, hnext, Option.bind_some] at h'
              obtain ⟨⟨seen', last'⟩, hrest', h'⟩ := Option.bind_eq_some_iff.mp h'
              obtain ⟨rfl, rfl⟩ := Prod.mk.inj (ih hrest hrest')
              exact (Option.some.inj h).symm.trans (Option.some.inj h')

/-- An iterator that shows something, and what it does not show. -/
theorem view_eq_some {it : Iterator} {v : View} (h : it.view tree = some v) :
    it.valid tree = some v.valid ∧ it.entry tree = some (v.key, v.value) ∧
      it.status = v.status := by
  unfold view at h
  obtain ⟨valid, hvalid, h⟩ := Option.bind_eq_some_iff.mp h
  obtain ⟨entry, hentry, h⟩ := Option.bind_eq_some_iff.mp h
  obtain rfl := Option.some.inj h
  exact ⟨hvalid, hentry, rfl⟩

/-- **A session that moves on as long as the iterator is valid is the loop over it.** -/
theorem scan_of_views {last : View} (hlast : last.valid = false) :
    ∀ {shown : List View} {it : Iterator}, (∀ v ∈ shown, v.valid = true) →
      it.views tree (List.replicate shown.length .next) = some (shown ++ [last]) →
      scan tree (shown.length + 1) it
        = some (shown.map (fun v => (v.status, v.key, v.value)), last.status) := by
  intro shown
  induction shown with
  | nil =>
      intro it _ h
      obtain ⟨v, hv, heq⟩ := Option.map_eq_some_iff.mp h
      obtain rfl := (List.cons.inj heq).1
      obtain ⟨hvalid, -, hstatus⟩ := view_eq_some hv
      unfold scan
      rw [hvalid, hlast, hstatus]
      rfl
  | cons v shown ih =>
      intro it hall h
      rw [List.forall_mem_cons] at hall
      obtain ⟨v', hv, h⟩ := Option.bind_eq_some_iff.mp h
      obtain ⟨it', hnext, h⟩ := Option.bind_eq_some_iff.mp h
      obtain ⟨rest, hrest, heq⟩ := Option.bind_eq_some_iff.mp h
      obtain ⟨rfl, rfl⟩ := List.cons.inj (Option.some.inj heq)
      obtain ⟨hvalid, hentry, hstatus⟩ := view_eq_some hv
      have hmore := ih hall.2 hrest
      rw [List.length_cons, scan, hvalid, hall.1, hentry, hstatus]
      simp only [Option.bind_eq_bind, Option.bind_some, if_true]
      rw [show it.next tree = some it' from hnext, Option.bind_some, hmore]
      rfl

end Iterator

namespace Api

/-! ## §2. What the thread of a client does. -/

/-- The call that `HandleRequest` makes; the scan moves on `n` times. -/
inductive Makes (request : HttpRequest) : EngineCall → Prop
  | get {key : Bytes} (h : ForKey request (text "GET") key) : Makes request (.get key)
  | put {key : Bytes} (h : ForKey request (text "PUT") key) : Makes request (.put key request.body)
  | delete {key : Bytes} (h : ForKey request (text "DELETE") key) : Makes request (.delete key)
  | flush (hmethod : request.method = text "POST") (htarget : request.target = text "/flush") :
      Makes request .flush
  | sync (hmethod : request.method = text "POST") (htarget : request.target = text "/sync") :
      Makes request .sync
  | scan {start limit : Bytes} (n : Nat) (hmethod : request.method = text "GET")
      (hquery : parseRangeQuery request.target = .ok (start, limit)) :
      Makes request (.iterate (some start) (some limit) (List.replicate n .next))

/-- The response `HandleRequest` makes of the answer to its call.  The loop of a scan
goes on while the iterator is valid, and then asks for its status. -/
inductive Responds : EngineCall → EngineReply → Nat × Bytes → Prop
  | get (key : Bytes) (s : Status) (value : Option Bytes) :
      Responds (.get key) (.value s value) (statusResponse s (keyValueJson key (value.getD [])))
  | put (key value : Bytes) (s : Status) :
      Responds (.put key value) (.status s) (statusResponse s (changedJson key))
  | delete (key : Bytes) (s : Status) :
      Responds (.delete key) (.status s) (statusResponse s (changedJson key))
  | flush (s : Status) :
      Responds .flush (.status s) (statusResponse s (text "\x7b\"status\":\"ok\"\x7d"))
  | sync (s : Status) :
      Responds .sync (.status s) (statusResponse s (text "\x7b\"status\":\"ok\"\x7d"))
  | scan (start limit : Option Bytes) (shown : List View) (last : View)
      (hshown : ∀ v ∈ shown, v.valid = true) (hlast : last.valid = false) :
      Responds (.iterate start limit (List.replicate shown.length .next))
        (.views (shown ++ [last])) (if !last.status.ok
          then (statusHttpCode last.status, errorJson (text last.status.toString))
          else (200, rangeJson (shown.map (fun v => (v.key, v.value)))))

variable {env : Env} {options : KVEngineOptions} {e e' : KVEngine} {memoryUsage : BPlusTree → Nat}
  {request : HttpRequest} {c : EngineCall} {reply : EngineReply} {response : Nat × Bytes}

/-- A `POST` that is not for a key. -/
theorem handleRequest_post (hmethod : request.method = text "POST") :
    (request.target = text "/flush" → handleRequest env memoryUsage e request
        = some (statusResponse (e.flush env).1 (text "\x7b\"status\":\"ok\"\x7d"),
          (e.flush env).2)) ∧
      (request.target = text "/sync" → handleRequest env memoryUsage e request
        = some (statusResponse (e.sync env).1 (text "\x7b\"status\":\"ok\"\x7d"),
          (e.sync env).2)) := by
  have hget : ¬ text "POST" = text "GET" := by decide
  constructor
  · intro htarget
    unfold handleRequest
    rw [hmethod, htarget, if_neg (by decide), if_neg (fun h => hget h.2),
      if_neg (fun h => hget h.2), if_pos ⟨rfl, rfl⟩]
  · intro htarget
    unfold handleRequest
    rw [hmethod, htarget, if_neg (by decide), if_neg (fun h => hget h.2),
      if_neg (fun h => hget h.2), if_neg (fun h => absurd h.1 (by decide)), if_pos ⟨rfl, rfl⟩]

/-- A scan by the session it opens. -/
theorem rangeScanJson_session (h : KVEngine.Reached env options e) {start limit : Bytes}
    {shown : List View} {last : View} (hshown : ∀ v ∈ shown, v.valid = true)
    (hlast : last.valid = false)
    (hsession : Iterator.session e.tree (some start) (some limit)
      (List.replicate shown.length .next) = some (shown ++ [last])) :
    rangeScanJson e start limit = some (if !last.status.ok
      then (statusHttpCode last.status, errorJson (text last.status.toString))
      else (200, rangeJson (shown.map (fun v => (v.key, v.value))))) := by
  obtain ⟨-, m, hmodels⟩ := h.holdsMap
  obtain ⟨n, s, hrep, -, -⟩ := hmodels
  obtain ⟨iterator, hfirst, hscan⟩ :=
    Iterator.scan_findFirst hrep ⟨0, 0, some start, some limit, .okStatus⟩ rfl
  obtain ⟨it, hnew, hviews⟩ := Option.bind_eq_some_iff.mp hsession
  obtain rfl := Option.some.inj (hfirst.symm.trans hnew)
  have hseen := Iterator.scan_unique hscan (Iterator.scan_of_views hlast hshown hviews)
  unfold rangeScanJson
  simp only [hnew, Option.bind_eq_bind, Option.bind_some,
    rangeItems_scan (hscan.trans (congrArg some hseen))]
  cases hok : last.status.ok with
  | false => simp
  | true => simp [itemsText, rangeJson, Function.comp_def]

/-- **The call, answered alone, is the request.** -/
theorem handleRequest_call (h : KVEngine.Reached env options e) (hmakes : Makes request c)
    (hresponds : Responds c reply response) (hcall : e.call env c = some (reply, e')) :
    handleRequest env memoryUsage e request = some (response, e') := by
  cases hmakes with
  | get hkey =>
      obtain ⟨⟨s, value⟩, hget, heq⟩ := Option.map_eq_some_iff.mp hcall
      obtain ⟨rfl, rfl⟩ := Prod.mk.inj heq
      cases hresponds
      rw [hkey.handleRequest (by decide), handleKey, if_pos rfl, hget]
      rfl
  | put hkey =>
      obtain ⟨⟨s, e₁⟩, hput, heq⟩ := Option.map_eq_some_iff.mp hcall
      obtain ⟨rfl, rfl⟩ := Prod.mk.inj heq
      cases hresponds
      rw [hkey.handleRequest (by decide), handleKey, if_neg (by decide), if_pos rfl, hput]
      rfl
  | delete hkey =>
      obtain ⟨⟨s, e₁⟩, hdelete, heq⟩ := Option.map_eq_some_iff.mp hcall
      obtain ⟨rfl, rfl⟩ := Prod.mk.inj heq
      cases hresponds
      rw [hkey.handleRequest (by decide), handleKey, if_neg (by decide), if_neg (by decide),
        if_pos rfl, hdelete]
      rfl
  | flush hmethod htarget =>
      obtain ⟨rfl, rfl⟩ := Prod.mk.inj (Option.some.inj hcall)
      cases hresponds
      exact (handleRequest_post hmethod).1 htarget
  | sync hmethod htarget =>
      obtain ⟨rfl, rfl⟩ := Prod.mk.inj (Option.some.inj hcall)
      cases hresponds
      exact (handleRequest_post hmethod).2 htarget
  | @scan start limit n hmethod hquery =>
      obtain ⟨views, hsession, heq⟩ := Option.map_eq_some_iff.mp hcall
      obtain ⟨rfl, rfl⟩ := Prod.mk.inj heq
      generalize hmoves : List.replicate n IteratorCall.next = moves at hresponds hsession
      cases hresponds with
      | scan _ _ shown last hshown hlast =>
          have hpre : scanPrefix <+: request.target := by
            by_contra hnot
            unfold parseRangeQuery at hquery
            rw [if_neg hnot] at hquery
            cases hquery
          obtain ⟨query, htarget⟩ := hpre
          obtain ⟨method, target, body⟩ := request
          dsimp only at hmethod htarget hquery
          subst hmethod htarget
          rw [handleRequest_scan, hquery]
          dsimp only
          rw [rangeScanJson_session h hshown hlast hsession]
          rfl

/-! ## §3. Every interleaving. -/

/-- `HandleRequest`, one request at a time: the response is the answer of the map. -/
def Handles (env : Env) (memoryUsage : BPlusTree → Nat) (requests : Nat → HttpRequest)
    (e : KVEngine) (i : Nat) (response : Nat × Bytes) (e' : KVEngine) : Prop :=
  handleRequest env memoryUsage e (requests i) = some (response, e') ∧
    Answers env memoryUsage e (requests i) response.1 response.2 e'.mapOf

/-- Clients one after another, by their calls. -/
theorem chain_of_calls (hcmp : keyOrder options.btreeOptions.comparator = bytewiseComparator)
    {requests : Nat → HttpRequest} {responses : Nat → Nat × Bytes} :
    ∀ {order : List (Nat × EngineCall × EngineReply)} {e e' : KVEngine},
      KVEngine.Reached env options e →
      (∀ p ∈ order, Makes (requests p.1) p.2.1 ∧ Responds p.2.1 p.2.2 (responses p.1)) →
      run? (KVEngine.call env) e (order.map (fun p => p.2.1))
        = some (order.map (fun p => p.2.2), e') →
      Chain (Handles env memoryUsage requests) e (order.map Prod.fst)
        ((order.map Prod.fst).map responses) e' := by
  intro order
  induction order with
  | nil =>
      intro e e' _ _ hrun
      obtain ⟨-, rfl⟩ := Prod.mk.inj (Option.some.inj hrun)
      exact .nil _
  | cons p order ih =>
      intro e e' h hall hrun
      obtain ⟨reply, e₁, replies, hcall, hrest, heq⟩ := run?_cons.mp hrun
      obtain ⟨rfl, rfl⟩ := List.cons.inj heq
      rw [List.forall_mem_cons] at hall
      obtain ⟨⟨hmakes, hresponds⟩, hall⟩ := hall
      have hhandle := @handleRequest_call env options e e₁ memoryUsage _ _ _ _ h hmakes hresponds
        hcall
      rcases handleRequest_answers h hcmp (requests p.1) with
        ⟨code, body, e₂, hsome, hmoves, hanswer⟩ | ⟨-, hnone⟩
      · obtain ⟨hresponse, rfl⟩ := Prod.mk.inj (Option.some.inj (hhandle.symm.trans hsome))
        refine .cons ⟨hhandle, ?_⟩ (ih (hmoves.reached h) hall hrest)
        rw [hresponse]
        exact hanswer
      · rw [hnone] at hhandle
        cases hhandle

/-- **Clients at the same time are answered as clients one at a time**: in every
interleaving of their threads the responses are those of a map behind a log, the
clients in an order in which one that came after another's answer is behind it. -/
theorem concurrent_clients (env : Env) (options : KVEngineOptions)
    (memoryUsage : BPlusTree → Nat) (e₀ : KVEngine) (h : KVEngine.Reached env options e₀)
    (hcmp : keyOrder options.btreeOptions.comparator = bytewiseComparator)
    (requests : Nat → HttpRequest) (responses : Nat → Nat × Bytes) (n : Nat)
    (acts : List ThreadStep) (s : SharedEngine)
    (hrun : steps (SharedEngine.step env) (.start e₀ n) acts = some s)
    (hone : (callers s.history).Nodup)
    (hmakes : ∀ i c, .call i c ∈ s.history → Makes (requests i) c)
    (hreturned : ∀ i c, .call i c ∈ s.history → ∃ reply, .ret i reply ∈ s.history)
    (hresponses : ∀ i c reply, .call i c ∈ s.history → .ret i reply ∈ s.history →
      Responds c reply (responses i)) :
    ∃ (order : List Nat) (e : KVEngine), order.Nodup ∧
      (∀ i, i ∈ order ↔ ∃ c, .call i c ∈ s.history) ∧
      Chain (Handles env memoryUsage requests) e₀ order (order.map responses) e ∧
      s.engine.mapOf = e.mapOf ∧
      ∀ h₁ h₂ i reply j c, s.history = h₁ ++ h₂ → .ret i reply ∈ h₁ → .call j c ∈ h₂ →
        [i, j].Sublist order := by
  obtain ⟨trace, stage, a, htrace, hseen, hagrees⟩ := SharedEngine.run_agrees hrun
  obtain ⟨order, hcalls, hnodup, hmem, hbehind⟩ :=
    Linearizable.in_order ⟨trace, stage, htrace, hseen⟩ hone hreturned
  refine ⟨order.map Prod.fst, a, hnodup, fun i => ⟨fun hi => ?_, fun hi => ?_⟩, ?_,
    KVEngine.mapOf_congr hagrees.tree, hbehind⟩
  · obtain ⟨⟨j, c, reply⟩, hc, rfl⟩ := List.mem_map.mp hi
    exact ⟨c, ((hmem j c reply).mp hc).1⟩
  · obtain ⟨c, hc⟩ := hi
    obtain ⟨reply, hreply⟩ := hreturned i c hc
    exact List.mem_map.mpr ⟨_, (hmem i c reply).mpr ⟨hc, hreply⟩, rfl⟩
  · refine chain_of_calls hcmp h (fun ⟨i, c, reply⟩ hp => ?_) hcalls
    obtain ⟨hc, hreply⟩ := (hmem i c reply).mp hp
    exact ⟨hmakes i c hc, hresponses i c reply hc hreply⟩

/-- One client puts a value while another one's scan is open. -/
def putWhileListed : List ThreadStep :=
  [.call 0 (.put [98] [55]), .call 1 (.iterate (some [97]) (some [99]) []), .run 1, .run 1, .run 1,
    .run 1, .run 0, .run 0, .run 0, .run 0, .run 1, .run 1, .run 0, .run 0, .run 0, .run 0]

theorem concurrent_clients_listed :
    let requests : Nat → HttpRequest := fun i => if i = 0 then ⟨text "PUT", text "/kv/b", [55]⟩
      else ⟨text "GET", text "/scan?start=a&limit=c", []⟩
    let responses : Nat → Nat × Bytes := fun i => if i = 0 then (200, changedJson [98])
      else (200, rangeJson [])
    ∃ (e₀ : KVEngine) (s : SharedEngine), KVEngine.new .undisturbed {} {} = some e₀ ∧
      steps (SharedEngine.step .undisturbed) (.start e₀ 2) putWhileListed = some s ∧
      ∃ (order : List Nat) (e : KVEngine), order.Nodup ∧
        (∀ i, i ∈ order ↔ ∃ c, .call i c ∈ s.history) ∧
        Chain (Handles .undisturbed (fun _ => 0) requests) e₀ order (order.map responses) e ∧
        s.engine.mapOf = e.mapOf := by
  intro requests responses
  have hhistory : ((KVEngine.new .undisturbed {} {}).bind (fun e₀ =>
      steps (SharedEngine.step .undisturbed) (.start e₀ 2) putWhileListed)).map
        SharedEngine.history
      = some [.call 0 (.put [98] [55]), .call 1 (.iterate (some [97]) (some [99]) []),
        .ret 1 (.views [⟨.okStatus, false, [], []⟩]), .ret 0 (.status .okStatus)] := by
    decide +kernel
  obtain ⟨s, hs, hhistory⟩ := Option.map_eq_some_iff.mp hhistory
  obtain ⟨e₀, hnew, hrun⟩ := Option.bind_eq_some_iff.mp hs
  have hput : Makes (requests 0) (.put [98] [55]) := .put ⟨rfl, ⟨[98], rfl, rfl⟩, by decide⟩
  have hlist : Makes (requests 1) (.iterate (some [97]) (some [99]) (List.replicate 0 .next)) :=
    .scan 0 rfl (by decide)
  obtain ⟨order, e, hnodup, hmem, hchain, hmap, -⟩ := concurrent_clients .undisturbed {}
    (fun _ => 0) e₀ (.new hnew) rfl requests responses 2 putWhileListed s hrun (by rw [hhistory]; decide)
    (fun i c hc => by
      rw [hhistory] at hc
      simp only [List.mem_cons, List.not_mem_nil, Event.call.injEq, reduceCtorEq, or_false] at hc
      rcases hc with ⟨rfl, rfl⟩ | ⟨rfl, rfl⟩
      · exact hput
      · exact hlist)
    (fun i c hc => by
      rw [hhistory] at hc ⊢
      simp only [List.mem_cons, List.not_mem_nil, Event.call.injEq, reduceCtorEq, or_false] at hc
      rcases hc with ⟨rfl, rfl⟩ | ⟨rfl, rfl⟩
      · exact ⟨.status .okStatus, by simp⟩
      · exact ⟨.views [⟨.okStatus, false, [], []⟩], by simp⟩)
    (fun i c reply hc hreply => by
      rw [hhistory] at hc hreply
      simp only [List.mem_cons, List.not_mem_nil, Event.call.injEq, Event.ret.injEq, reduceCtorEq,
        or_false, false_or] at hc hreply
      rcases hc with ⟨rfl, rfl⟩ | ⟨rfl, rfl⟩
      · obtain ⟨hi, -⟩ | ⟨-, rfl⟩ := hreply
        · cases hi
        · exact .put [98] [55] .okStatus
      · obtain ⟨-, rfl⟩ | ⟨hi, -⟩ := hreply
        · exact .scan _ _ [] ⟨.okStatus, false, [], []⟩ nofun rfl
        · cases hi)
  exact ⟨e₀, s, hnew, hrun, order, e, hnodup, hmem, hchain, hmap⟩

end Api

end KvEngine
