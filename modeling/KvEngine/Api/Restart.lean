/-
  KvEngine.Api.Restart
  ────────────────────
  **A server that is stopped and started again.**

  Between two clients the server may be shut down, engine and all, and started
  again on the same directory.  While no request to the operating system fails
  and the requests of the clients fit, every `PUT` and `DELETE` takes effect, and
  no client can tell that there has been a restart.
-/
import KvEngine.Api.Server

namespace KvEngine

open Lib

namespace Api

/-! ## §1. Clients and restarts. -/

inductive ServerEvent where
  | client (c : Client)
  | restart
  deriving DecidableEq, Repr

/-- What the client gets, if there is one, and the engine behind the event. -/
def serverStep (env : Env) (memoryUsage : BPlusTree → Nat) (maxBodySize : Nat)
    (engine : KVEngine) : ServerEvent → Option (Bytes × KVEngine)
  | .client c => handleClient env memoryUsage maxBodySize engine c
  | .restart => (engine.reopen env).map (fun engine => ([], engine))

/-- The request line has a header behind it, what the request stores can be logged and
read back, and the connection is not closed before the response is sent. -/
def ServerEvent.Fits (options : WalOptions) (maxBodySize : Nat) : ServerEvent → Prop
  | .client c => ¬ Bare c.chunks ∧ .brokenPipe ∉ c.sends ∧ ∀ request op,
      receiveRequest maxBodySize 400 c.chunks = some (.ok request) → Changes request op →
        op.Fits options
  | .restart => True

/-- A `PUT` and a `DELETE` are done, and the client is told so. -/
def Done (maxBodySize : Nat) (m : RefMap) (client : Client) (received : Bytes) (m' : RefMap) :
    Prop :=
  ∀ request key, receiveRequest maxBodySize 400 client.chunks = some (.ok request) →
    (ForKey request (text "PUT") key → m' = Function.update m key (some request.body) ∧
      received <+: buildResponse 200 (changedJson key) applicationJson) ∧
    (ForKey request (text "DELETE") key → m' = Function.update m key none ∧
      (m key ≠ none → received <+: buildResponse 200 (changedJson key) applicationJson))

/-- What an event is: a client is served, and a restart is nothing to the map. -/
def Happens (env : Env) (memoryUsage : BPlusTree → Nat) (maxBodySize : Nat) (e : KVEngine) :
    ServerEvent → Bytes → KVEngine → Prop
  | .client c, received, e' =>
      Serves env memoryUsage maxBodySize e c received e' ∧
        Done maxBodySize e.mapOf c received e'.mapOf
  | .restart, _, e' => e.reopen env = some e' ∧ e'.mapOf = e.mapOf

variable {env : Env} {options : KVEngineOptions} {e e' : KVEngine} {m : RefMap}
  {memoryUsage : BPlusTree → Nat} {maxBodySize : Nat} {request : HttpRequest} {key : Bytes}

/-! ## §2. An engine whose log holds its map. -/

theorem mapOf_engineModels (h : KVEngine.EngineModels env options e m) : e.mapOf = m := by
  obtain ⟨_, _, _, hlogged, -⟩ := h
  exact KVEngine.mapOf_eq hlogged.tree

/-- A request whose record fits keeps an engine whose log holds its map. -/
theorem Moves.models (hmoves : Moves env request e e') (hok : env.Fine)
    (hwal : options.enableWal = true) (h : KVEngine.EngineModels env options e m)
    (hfits : ∀ op, Changes request op → op.Fits options.walOptions) :
    ∃ m', KVEngine.EngineModels env options e' m' := by
  cases hmoves with
  | stays => exact ⟨m, h⟩
  | calls hop hrun =>
      obtain ⟨e₁, hrun₁, h₁⟩ := KVEngine.apply_refines hok hwal e m _ h (hfits _ hop)
      obtain ⟨-, rfl⟩ := Prod.mk.inj (Option.some.inj (hrun₁.symm.trans hrun))
      exact ⟨_, h₁⟩

/-- **A `PUT` that fits is done.** -/
theorem handleRequest_put (hok : env.Fine) (hwal : options.enableWal = true)
    (h : KVEngine.EngineModels env options e m) (hkey : ForKey request (text "PUT") key)
    (hfits : WriteAheadLog.Fits options.walOptions key request.body) :
    ∃ e', handleRequest env memoryUsage e request = some ((200, changedJson key), e') ∧
      e'.mapOf = Function.update m key (some request.body) := by
  obtain ⟨e', hrun, h'⟩ :=
    KVEngine.apply_refines hok hwal e m (.put key request.body) h hfits
  simp only [RefMap.applyEngine, RefMap.apply, if_neg hkey.nonempty] at hrun h'
  obtain ⟨⟨s, e₁⟩, hput, heq⟩ := Option.map_eq_some_iff.mp hrun
  obtain ⟨hreply, rfl⟩ := Prod.mk.inj heq
  obtain ⟨rfl, -⟩ := Prod.mk.inj hreply
  refine ⟨e₁, ?_, mapOf_engineModels h'⟩
  rw [hkey.handleRequest (by decide), handleKey, if_neg (by decide), if_pos rfl, hput]
  rfl

/-- **A `DELETE` that fits is done.** -/
theorem handleRequest_delete (hok : env.Fine) (hwal : options.enableWal = true)
    (h : KVEngine.EngineModels env options e m) (hkey : ForKey request (text "DELETE") key)
    (hfits : WriteAheadLog.Fits options.walOptions key []) :
    ∃ code body e', handleRequest env memoryUsage e request = some ((code, body), e') ∧
      e'.mapOf = Function.update m key none ∧
      (m key ≠ none → code = 200 ∧ body = changedJson key) := by
  obtain ⟨e', hrun, h'⟩ := KVEngine.apply_refines hok hwal e m (.delete key) h hfits
  obtain ⟨⟨s, e₁⟩, hdelete, heq⟩ := Option.map_eq_some_iff.mp hrun
  obtain ⟨hreply, rfl⟩ := Prod.mk.inj heq
  have hhandle : handleRequest env memoryUsage e request
      = some (statusResponse s (changedJson key), e₁) := by
    rw [hkey.handleRequest (by decide), handleKey, if_neg (by decide), if_neg (by decide),
      if_pos rfl, hdelete]
    rfl
  refine ⟨_, _, e₁, hhandle, ?_, fun hbound => ?_⟩
  · rw [mapOf_engineModels h']
    simp only [RefMap.applyEngine, RefMap.apply]
    cases hm : m key with
    | some value => rfl
    | none => exact (Function.update_eq_self_iff.mpr hm.symm).symm
  · obtain ⟨value, hvalue⟩ := Option.ne_none_iff_exists'.mp hbound
    simp only [RefMap.applyEngine, RefMap.apply, hvalue] at hreply
    obtain ⟨rfl, -⟩ := Prod.mk.inj hreply
    exact ⟨rfl, rfl⟩

/-- A record that fits has room in the log. -/
theorem Overruns.absurd (hfull : Overruns env e request) (hok : env.Fine)
    (hwal : options.enableWal = true) (h : KVEngine.EngineModels env options e m)
    (hfits : ∀ op, Changes request op → op.Fits options.walOptions) : False := by
  obtain ⟨key, w, hw, ⟨hkey, hlog⟩ | ⟨hkey, hlog⟩⟩ := hfull
  · obtain ⟨e', hrun, -⟩ := KVEngine.apply_refines hok hwal e m _ h (hfits _ (.put hkey))
    obtain ⟨r, hput, -⟩ := Option.map_eq_some_iff.mp hrun
    obtain ⟨s, w', hlog', -⟩ := KVEngine.logged_cases hw hput
    rw [hlog] at hlog'
    cases hlog'
  · obtain ⟨e', hrun, -⟩ := KVEngine.apply_refines hok hwal e m _ h (hfits _ (.delete hkey))
    obtain ⟨r, hdelete, -⟩ := Option.map_eq_some_iff.mp hrun
    obtain ⟨s, w', hlog', -⟩ := KVEngine.logged_cases hw hdelete
    rw [hlog] at hlog'
    cases hlog'

/-! ## §3. Every run. -/

/-- An engine that calls lead to and whose log holds its map. -/
def Standing (env : Env) (options : KVEngineOptions) (e : KVEngine) : Prop :=
  KVEngine.Reached env options e ∧ ∃ m, KVEngine.EngineModels env options e m

/-- A client that is served: no request was read, or one was answered. -/
theorem handleClient_cases {c : Client} {received : Bytes}
    (hrun : handleClient env memoryUsage maxBodySize e c = some (received, e')) :
    (∃ parseError, receiveRequest maxBodySize 400 c.chunks = some (.error parseError) ∧
        e' = e) ∨
      ∃ request code body, receiveRequest maxBodySize 400 c.chunks = some (.ok request) ∧
        handleRequest env memoryUsage e request = some ((code, body), e') ∧
        received <+: buildResponse code body applicationJson := by
  cases hreceive : receiveRequest maxBodySize 400 c.chunks with
  | none =>
      rw [handleClient, hreceive] at hrun
      cases hrun
  | some result =>
      cases result with
      | error parseError =>
          rw [handleClient_error hreceive] at hrun
          obtain ⟨_, -, heq⟩ := Option.map_eq_some_iff.mp hrun
          exact Or.inl ⟨parseError, rfl, (Prod.mk.inj heq).2.symm⟩
      | ok request =>
          rw [handleClient_ok hreceive] at hrun
          obtain ⟨⟨⟨code, body⟩, e₁⟩, hhandle, hrun⟩ := Option.bind_eq_some_iff.mp hrun
          obtain ⟨sent, hsent, heq⟩ := Option.map_eq_some_iff.mp hrun
          obtain ⟨rfl, rfl⟩ := Prod.mk.inj heq
          refine Or.inr ⟨request, code, body, rfl, hhandle, ?_⟩
          rw [respond_eq] at hsent
          obtain ⟨_, -, rfl⟩ := Option.map_eq_some_iff.mp hsent
          obtain ⟨k, -, hk, -⟩ := sendAll_take c.sends (buildResponse code body applicationJson)
          exact hk ▸ List.take_prefix _ _

/-- **What a client stores is stored**, and the log holds the map behind it. -/
theorem handleClient_done (hok : env.Fine) (hwal : options.enableWal = true)
    (hcmp : keyOrder options.btreeOptions.comparator = bytewiseComparator)
    (hreached : KVEngine.Reached env options e) (hmodels : KVEngine.EngineModels env options e m)
    {c : Client} {received : Bytes}
    (hrun : handleClient env memoryUsage maxBodySize e c = some (received, e'))
    (hfits : ∀ request op, receiveRequest maxBodySize 400 c.chunks = some (.ok request) →
      Changes request op → op.Fits options.walOptions) :
    (∃ m', KVEngine.EngineModels env options e' m') ∧
      Done maxBodySize e.mapOf c received e'.mapOf := by
  rcases handleClient_cases hrun with
    ⟨parseError, hreceive, rfl⟩ | ⟨request, code, body, hreceive, hhandle, hsent⟩
  · refine ⟨⟨m, hmodels⟩, fun request key hreceive' => ?_⟩
    rw [hreceive] at hreceive'
    cases hreceive'
  have hfit : ∀ op, Changes request op → op.Fits options.walOptions :=
    fun op => hfits request op hreceive
  constructor
  · rcases @handleRequest_answers env options e memoryUsage hreached hcmp request with
      ⟨code', body', e₁, heq, hmoves, -⟩ | ⟨-, hnone⟩
    · obtain ⟨-, rfl⟩ := Prod.mk.inj (Option.some.inj (hhandle.symm.trans heq))
      exact hmoves.models hok hwal hmodels hfit
    · rw [hnone] at hhandle
      cases hhandle
  intro request' key hreceive'
  obtain rfl := Except.ok.inj (Option.some.inj (hreceive.symm.trans hreceive'))
  rw [mapOf_engineModels hmodels]
  refine ⟨fun hkey => ?_, fun hkey => ?_⟩
  · obtain ⟨e₁, hput, hmap⟩ := handleRequest_put hok hwal hmodels hkey (hfit _ (.put hkey))
    obtain ⟨hresponse, rfl⟩ := Prod.mk.inj (Option.some.inj (hhandle.symm.trans hput))
    obtain ⟨rfl, rfl⟩ := Prod.mk.inj hresponse
    exact ⟨hmap, hsent⟩
  · obtain ⟨code', body', e₁, hdelete, hmap, htold⟩ :=
      handleRequest_delete hok hwal hmodels hkey (hfit _ (.delete hkey))
    obtain ⟨hresponse, rfl⟩ := Prod.mk.inj (Option.some.inj (hhandle.symm.trans hdelete))
    obtain ⟨rfl, rfl⟩ := Prod.mk.inj hresponse
    refine ⟨hmap, fun hbound => ?_⟩
    obtain ⟨rfl, rfl⟩ := htold hbound
    exact hsent

/-- **A client whose request fits** is served, and what it stores is stored. -/
theorem handleClient_happens (hok : env.Fine) (hwal : options.enableWal = true)
    (hcmp : keyOrder options.btreeOptions.comparator = bytewiseComparator)
    (h : Standing env options e) {c : Client}
    (hfits : (ServerEvent.client c).Fits options.walOptions maxBodySize) :
    ∃ received e', handleClient env memoryUsage maxBodySize e c = some (received, e') ∧
      Standing env options e' ∧
      Happens env memoryUsage maxBodySize e (.client c) received e' := by
  obtain ⟨hreached, m, hmodels⟩ := h
  obtain ⟨hbare, hconnected, hfits⟩ := hfits
  rcases @handleClient_serves env options e memoryUsage maxBodySize hreached hcmp c with
    ⟨received, e', hrun, hreached', hserves⟩ |
      ⟨-, hwrong | ⟨request, hreceive, hfull⟩ | ⟨code, body, _, -, hkilled⟩⟩
  · obtain ⟨hmodels', hdone⟩ := handleClient_done hok hwal hcmp hreached hmodels hrun hfits
    exact ⟨received, e', hrun, ⟨hreached', hmodels'⟩, hserves, hdone⟩
  · exact absurd hwrong hbare
  · exact (hfull.absurd hok hwal hmodels (fun op => hfits request op hreceive)).elim
  · exact absurd hkilled (sendAll_returns hconnected _)

/-- **One event.** -/
theorem serverStep_happens (hok : env.Fine) (hwal : options.enableWal = true)
    (hcmp : keyOrder options.btreeOptions.comparator = bytewiseComparator) (event : ServerEvent)
    (h : Standing env options e) (hfits : event.Fits options.walOptions maxBodySize) :
    ∃ received e', serverStep env memoryUsage maxBodySize e event = some (received, e') ∧
      Standing env options e' ∧ Happens env memoryUsage maxBodySize e event received e' := by
  cases event with
  | client c => exact handleClient_happens hok hwal hcmp h hfits
  | restart =>
      obtain ⟨hreached, m, hmodels⟩ := h
      obtain ⟨e', hreopen, h'⟩ := hmodels.reopen hok hwal
      have hcall : e.apply env .reopen = some ((.okStatus, none), e') := by
        rw [KVEngine.apply, hreopen]
        rfl
      refine ⟨[], e', by rw [serverStep, hreopen]; rfl, ⟨hreached.call hcall, m, h'⟩, hreopen, ?_⟩
      rw [mapOf_engineModels h', mapOf_engineModels hmodels]

/-- **Restarts are not noticed.**  A server that begins with an empty directory
serves any clients whose requests fit, with any restarts between them: every `PUT`
and `DELETE` takes effect, and every later answer shows it. -/
theorem restarts_unnoticed (env : Env) (hok : env.Fine) (options : KVEngineOptions)
    (hwal : options.enableWal = true)
    (hcmp : keyOrder options.btreeOptions.comparator = bytewiseComparator)
    (memoryUsage : BPlusTree → Nat) (maxBodySize : Nat) (events : List ServerEvent)
    (hfits : ∀ event ∈ events, event.Fits options.walOptions maxBodySize) :
    ∃ e₀ received e', KVEngine.new env options {} = some e₀ ∧
      e₀.mapOf = RefMap.empty ∧
      run? (serverStep env memoryUsage maxBodySize) e₀ events = some (received, e') ∧
      Chain (Happens env memoryUsage maxBodySize) e₀ events received e' := by
  obtain ⟨e₀, hnew, hmodels⟩ := @KVEngine.models_new env options hok hwal
  obtain ⟨received, e', hrun, -, hchain⟩ := @run?_total_chain _ _ _ _
    (serverStep env memoryUsage maxBodySize) (Standing env options)
    (fun event => event.Fits options.walOptions maxBodySize) id
    (Happens env memoryUsage maxBodySize)
    (fun _ event hs hfit => serverStep_happens hok hwal hcmp event hs hfit) _ _
    ⟨.new hnew, _, hmodels⟩ hfits
  exact ⟨e₀, received, e', hnew, mapOf_engineModels hmodels, hrun, hchain⟩

/-- Headers that begin before the blank line. -/
theorem not_bare {chunks : List Bytes} {a b : Nat}
    (h : (receiveHeader 400 chunks).toOption.map (fun s => (s.headerStart, s.headerEnd))
      = some (a, b)) (hab : a ≠ b + 2) : ¬ Bare chunks := by
  intro hbare
  obtain ⟨s, hs, hstart⟩ := hbare.receiveHeader 400
  rw [hs] at h
  obtain ⟨rfl, rfl⟩ := Prod.mk.inj (Option.some.inj h)
  exact hab hstart

/-- A value is put, the server is started again, and the value is asked for. -/
def putRestartGet : List ServerEvent :=
  [.client ⟨[text "PUT /kv/a HTTP/1.1\r\nContent-Length: 1\r\n\r\n7"], [.takes 1000]⟩, .restart,
    .client ⟨[text "GET /kv/a HTTP/1.1\r\nHost: h\r\n\r\n"], [.takes 1000]⟩]

theorem restarts_unnoticed_put : ∃ e₀ received e', KVEngine.new .undisturbed {} {} = some e₀ ∧
    e₀.mapOf = RefMap.empty ∧
    run? (serverStep .undisturbed (fun _ => 0) 10) e₀ putRestartGet = some (received, e') ∧
    Chain (Happens .undisturbed (fun _ => 0) 10) e₀ putRestartGet received e' := by
  have hput : receiveRequest 10 400
      [text "PUT /kv/a HTTP/1.1\r\nContent-Length: 1\r\n\r\n7"]
      = some (.ok ⟨text "PUT", keyPrefix ++ [97], [55]⟩) := by decide +kernel
  have hget : receiveRequest 10 400 [text "GET /kv/a HTTP/1.1\r\nHost: h\r\n\r\n"]
      = some (.ok ⟨text "GET", keyPrefix ++ [97], []⟩) := by decide +kernel
  refine restarts_unnoticed .undisturbed Env.fine_undisturbed {} rfl rfl (fun _ => 0) 10
    putRestartGet (fun event hevent => ?_)
  unfold putRestartGet at hevent
  simp only [List.mem_cons, List.not_mem_nil, or_false] at hevent
  rcases hevent with rfl | rfl | rfl
  · refine ⟨@not_bare _ 20 37 (by decide +kernel) (by decide), by decide,
      fun request op hreceive hop => ?_⟩
    obtain rfl := Except.ok.inj (Option.some.inj (hput.symm.trans hreceive))
    cases hop with
    | put hkey =>
        obtain ⟨s, htarget, hdecode⟩ := hkey.target
        obtain rfl := List.append_cancel_left htarget
        obtain rfl := Option.some.inj hdecode
        exact ⟨by decide, by decide, by decide, by decide, by decide⟩
    | delete hkey => exact absurd hkey.method (by decide)
    | flush | sync => trivial
  · trivial
  · refine ⟨@not_bare _ 20 27 (by decide +kernel) (by decide), by decide,
      fun request op hreceive hop => ?_⟩
    obtain rfl := Except.ok.inj (Option.some.inj (hget.symm.trans hreceive))
    cases hop with
    | put hkey | delete hkey => exact absurd hkey.method (by decide)
    | flush | sync => trivial

end Api

end KvEngine
