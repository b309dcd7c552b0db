/-
  Every hop goes where the net grant let it go.  The invariant is `Guarded`: a request that was handed back unsent is
  still for the URI of the hop's target.
-/
import Oam.Fetch.Send

namespace Oam.Fetch

open List Headers Trace

section
variable {H : Type} {c : Crates} {hm : HeaderMap H}

def UriAgrees (c : Crates) : Prop :=
  ∀ url uri, url.isHttp = true → c.uri url = some uri →
    uri.scheme = some url.scheme ∧ uri.host = url.host ∧ uri.port = url.port

/-- What an event does to the grant: a new turn starts with none. -/
def noteGrant (grant : Option NetTarget) : Event H → Option NetTarget
  | .turn _ => none
  | .asked target none => some target
  | _ => grant

def grantAfter (log : List (Event H)) : Option NetTarget := log.foldl noteGrant none

def Event.uri : Event H → Option Uri
  | sent _ req _ => some req.uri
  | checkedOut dst => some dst
  | parked _ uri => some uri
  | _ => none

def Reaches (uri : Uri) (target : NetTarget) : Prop :=
  uri.host.getD "" = target.host ∧ uri.effectivePort = target.port

/-- The check, if there is one, was asked about the URI's host and port in this turn, and allowed them. -/
def Granted (check : Option NetCheck) (log : List (Event H)) (uri : Uri) : Prop :=
  ∀ chk, check = some chk → ∃ target, grantAfter log = some target ∧ chk target = .ok () ∧ Reaches uri target

abbrev AllGranted (check : Option NetCheck) (log : List (Event H)) : Prop :=
  Each (fun before e => ∀ uri, e.uri = some uri → Granted check before uri) log

/-! ## The target of a hop -/

variable {url : Url}

theorem isHttp_iff : url.isHttp ↔ url.scheme = "http" ∨ url.scheme = "https" := by
  simp [Url.isHttp]

variable {uri : Uri}

theorem toUri_reaches (hc : UriAgrees c) (hhttp : url.isHttp) (h : toUri c url = some uri) :
    Reaches uri (netTarget url) := by
  obtain ⟨hscheme, hhost, hport⟩ := hc { url with username := "", password := none, fragment := none } uri hhttp h
  refine ⟨by rw [hhost, netTarget], ?_⟩
  show uri.port.getD _ = url.portOrKnownDefault.getD 0
  rw [hport, hscheme, Url.portOrKnownDefault]
  cases url.port with
  | some => rfl
  | none => rcases isHttp_iff.mp hhttp with h | h <;> simp [h]

theorem Reaches.of_sameOrigin {a b : Uri} {target : NetTarget} (h : Reaches b target) (hab : SameOrigin a b) :
    Reaches a target := by
  obtain ⟨hscheme, hhost, hport⟩ := hab
  exact ⟨by rw [hhost, h.1], by rw [Uri.effectivePort, hscheme, hport, ← h.2, Uri.effectivePort]⟩

/-- The check it was started with, http URLs, and a request that waits to be sent again is for the hop's target. -/
structure Keeps (c : Crates) (check : Option NetCheck) (s : LoopState H) : Prop where
  netCheck : s.netCheck = check
  current : s.current.isHttp = true
  pin : ∀ pin, s.pin = some pin → pin.isHttp = true
  unsent : ∀ r, s.unsent = some r → toUri c s.target = some r.uri

variable {check : Option NetCheck} {s : LoopState H}

theorem Keeps.target (h : Keeps c check s) : s.target.isHttp := by
  unfold LoopState.target
  split
  · next pin hpin => exact h.pin pin hpin
  · exact h.current

theorem Keeps.parkedPort {p : PendingFetch H} (h : Keeps c check p.state) (hwants : p.wants = .addresses) :
    fetchParkedPort p = some (netTarget p.state.target).port := by
  have hport : p.state.target.portOrKnownDefault = some (netTarget p.state.target).port := by
    show _ = some (p.state.target.portOrKnownDefault.getD 0)
    rw [Url.portOrKnownDefault]
    cases p.state.target.port with
    | some => rfl
    | none => rcases isHttp_iff.mp h.target with h | h <;> simp [h]
  rw [fetchParkedPort, if_pos hwants, ← hport, LoopState.target]
  cases p.state.pin with
  | none | some => rfl

variable {s' : LoopState H} {headers : H} {known : Bool} {req : Request H} {built : List (Event H)}

theorem Keeps.takeRequest (h : Keeps c check s) (huri : toUri c s.target = some uri)
    (htake : takeRequest s uri headers known = .ok (s', req, built)) :
    Keeps c check s' ∧ s'.target = s.target ∧ s'.unsent = none ∧ req.uri = uri := by
  rcases takeRequest_eq htake with ⟨hunsent, rfl, _⟩ | ⟨_, _, hunsent, _, rfl, rfl, _⟩
  · have hreq : some req.uri = some uri := (h.unsent req hunsent).symm.trans huri
    exact ⟨⟨h.netCheck, h.current, h.pin, fun r hr => by cases hr⟩, rfl, rfl, Option.some.inj hreq⟩
  · exact ⟨⟨h.netCheck, h.current, h.pin, h.unsent⟩, rfl, hunsent, rfl⟩

/-! ## The grant along the log -/

def TurnGranted (check : Option NetCheck) (log : List (Event H)) (url : Url) : Prop :=
  ∀ chk, check = some chk → grantAfter log = some (netTarget url) ∧ chk (netTarget url) = .ok ()

variable {log : List (Event H)}

theorem TurnGranted.granted (h : TurnGranted check log url) (huri : Reaches uri (netTarget url)) :
    Granted check log uri :=
  fun chk hchk => ⟨netTarget url, (h chk hchk).1, (h chk hchk).2, huri⟩

def Event.Quiet (e : Event H) : Prop := ∀ grant, noteGrant grant e = grant

variable {events : List (Event H)}

theorem grantAfter_append_quiet (h : ∀ e ∈ events, e.Quiet) : grantAfter (log ++ events) = grantAfter log := by
  rw [grantAfter, foldl_append]
  show events.foldl noteGrant (grantAfter log) = grantAfter log
  induction events with
  | nil => rfl
  | cons e events ih =>
    rw [foldl_cons, h e (by simp)]
    exact ih fun x hx => h x (by simp [hx])

theorem TurnGranted.append_quiet (h : TurnGranted check log url) (hquiet : ∀ e ∈ events, e.Quiet) :
    TurnGranted check (log ++ events) url :=
  fun chk hchk => by
    rw [grantAfter_append_quiet hquiet]
    exact h chk hchk

theorem quiet_parked (wants : Wants) {target : NetTarget} (h : Reaches uri target) :
    ∀ e ∈ [(.parked wants uri : Event H)], e.Quiet ∧ ∀ uri', e.uri = some uri' → Reaches uri' target := by
  intro e he
  rw [mem_singleton.mp he]
  refine ⟨fun _ => rfl, fun uri' huri => ?_⟩
  cases huri
  exact h

theorem turnGranted_asks (h : netDenial check url = none) (log : List (Event H)) (auth : Option Bytes) :
    TurnGranted check (log ++ .turn auth :: asks check url) url := by
  rintro chk rfl
  have hok : chk (netTarget url) = .ok () := by
    rw [netDenial, Option.bind_some] at h
    split at h
    · assumption
    · cases h
  refine ⟨?_, hok⟩
  show grantAfter (log ++ [.turn auth, .asked (netTarget url) (netDenial (some chk) url)]) = _
  rw [h, grantAfter, foldl_append]
  rfl

theorem TurnGranted.extend (h : TurnGranted check log url) (heach : AllGranted check log)
    (hevents : ∀ e ∈ events, e.Quiet ∧ ∀ uri, e.uri = some uri → Reaches uri (netTarget url)) : AllGranted check
    (log ++ events) ∧ TurnGranted check (log ++ events) url := by
  refine ⟨each_append.mpr ⟨heach, fun before e after hsplit uri he => ?_⟩, h.append_quiet fun e he => (hevents e he).1⟩
  have hbefore : ∀ x ∈ before, x.Quiet := fun x hx => (hevents x (by simp [hsplit, hx])).1
  exact (h.append_quiet hbefore).granted ((hevents e (by simp [hsplit])).2 uri he)

theorem sendEvents_quiet (htake : takeRequest s uri headers known = .ok (s', req, built)) {sent : Sent H}
    (hsent : Sends hm req sent) (reply : Reply H) {target : NetTarget} (hreq : Reaches req.uri target) :
    ∀ e ∈ sendEvents s' built sent req reply, e.Quiet ∧ ∀ uri, e.uri = some uri → Reaches uri target := by
  intro e he
  rw [sendEvents, mem_append, mem_append, mem_map, mem_singleton] at he
  rcases he with (hbuilt | ⟨dst, hdst, rfl⟩) | rfl
  · have : ∃ r, e = .built r := by
      rcases takeRequest_eq htake with ⟨_, _, rfl⟩ | ⟨_, _, _, _, _, _, rfl⟩
      · cases hbuilt
      · exact ⟨req, mem_singleton.mp hbuilt⟩
    obtain ⟨r, rfl⟩ := this
    exact ⟨fun _ => rfl, fun uri h => by cases h⟩
  · refine ⟨fun _ => rfl, fun uri h => ?_⟩
    cases h
    exact hreq.of_sameOrigin (hsent.checkouts dst hdst)
  · refine ⟨fun _ => rfl, fun uri h => ?_⟩
    cases h
    exact hreq

/-! ## The loop -/

/-- **The invariant.**  Every event so far was granted; past the head of a turn the grant is the hop's target's. -/
def Guarded (c : Crates) (check : Option NetCheck) (config : Config H) (log : List (Event H)) : Prop :=
  AllGranted check log ∧ match config with
    | .top s => Keeps c check s
    | .sending s uri _ => Keeps c check s ∧ toUri c s.target = some uri ∧ TurnGranted check log s.target
    | .parked p => Keeps c check p.state ∧ TurnGranted check log p.state.target
    | .finished _ => True

theorem each_asks (check : Option NetCheck) (url : Url) (auth : Option Bytes) (log : List (Event H)) : Each
    (fun before e => ∀ uri, e.uri = some uri → Granted check (log ++ before) uri) (.turn auth :: asks check url) := by
  refine each_of_forall fun before e he uri hu => ?_
  rcases mem_cons.mp he with rfl | he
  · cases hu
  · unfold asks at he
    split at he
    · rw [mem_singleton.mp he] at hu
      cases hu
    · cases he

theorem Keeps.follow (h : Keeps c check s) (hunsent : s.unsent = none) (hurl : url.isHttp)
    (method : Method) (dropBody : Bool) : Keeps c check (follow hm s url method dropBody) where
  netCheck := h.netCheck
  current := hurl
  pin := h.pin
  unsent := fun r hr => by
    have hnone : (none : Option (Request H)) = some r := hunsent.symm.trans hr
    cases hnone

theorem guarded_send (hc : UriAgrees c) (hkeeps : Keeps c check s) (huri : toUri c s.target = some uri)
    (hgrant : TurnGranted check log s.target) (htake : takeRequest s uri headers known = .ok (s', req, built))
    {sent : Sent H} (hsent : Sends hm req sent) (reply : Reply H) (heach : AllGranted check log) : AllGranted check
    (log ++ sendEvents s' built sent req reply) ∧ TurnGranted check
    (log ++ sendEvents s' built sent req reply) s'.target := by
  obtain ⟨_, htarget, _, rfl⟩ := hkeeps.takeRequest huri htake
  rw [htarget]
  exact hgrant.extend heach (sendEvents_quiet htake hsent reply (toUri_reaches hc hkeeps.target huri))

theorem guarded_move (hc : UriAgrees c) {config config' : Config H} (h : Guarded c check config log)
    (hmove : Move c hm config config' events) : Guarded c check config' (log ++ events) := by
  obtain ⟨heach, hconfig⟩ := h
  cases hmove with
  | stays => simpa using ⟨heach, hconfig⟩
  | ends => exact ⟨by simpa using heach, trivial⟩
  | resumes => exact ⟨by simpa using heach, hconfig.1⟩
  | turnEnds s auth =>
    rw [hconfig.netCheck]
    exact ⟨each_append.mpr ⟨heach, each_asks check s.target auth log⟩, trivial⟩
  | @turnParks s auth uri p granted huri hstate =>
    subst hstate
    rw [hconfig.netCheck] at granted ⊢
    have hhead := each_append.mpr ⟨heach, each_asks check p.state.target auth log⟩
    have hparked := (turnGranted_asks granted log auth).extend hhead
      (quiet_parked p.wants (toUri_reaches hc hconfig.target huri))
    rw [← append_assoc]
    exact ⟨hparked.1, hconfig, hparked.2⟩
  | turnSends granted huri =>
    rw [hconfig.netCheck] at granted ⊢
    exact ⟨each_append.mpr ⟨heach, each_asks check _ _ log⟩, hconfig, huri, turnGranted_asks granted log _⟩
  | sendEnds htake reply =>
    obtain ⟨hkeeps, huri, hgrant⟩ := hconfig
    exact ⟨(guarded_send hc hkeeps huri hgrant htake (request_sends _ _ _) reply heach).1, trivial⟩
  | returns htake hsent hneeded =>
    obtain ⟨hkeeps, huri, hgrant⟩ := hconfig
    obtain ⟨heach', hgrant'⟩ := guarded_send hc hkeeps huri hgrant htake (request_sends _ _ _) _ heach
    obtain ⟨hkeeps', htarget, _, hreq⟩ := hkeeps.takeRequest huri htake
    obtain ⟨r, hr, hruri, _⟩ := (request_sends _ _ _).returned _ hsent _ hneeded
    have huri' : toUri c _ = some _ := (congrArg (toUri c) htarget).trans huri
    have hparked := hgrant'.extend heach' (quiet_parked .addresses (toUri_reaches hc hkeeps'.target huri'))
    rw [← append_assoc]
    refine ⟨hparked.1, ⟨hkeeps'.netCheck, hkeeps'.current, hkeeps'.pin, fun r' hr' => ?_⟩, hparked.2⟩
    -- The request that came back is for the URI it was sent with.
    obtain rfl : r = r' := Option.some.inj (hr.symm.trans hr')
    rw [hruri, hreq]
    exact huri'
  | resends htake =>
    obtain ⟨hkeeps, huri, hgrant⟩ := hconfig
    obtain ⟨heach', hgrant'⟩ := guarded_send hc hkeeps huri hgrant htake (request_sends _ _ _) _ heach
    obtain ⟨hkeeps', htarget, _, _⟩ := hkeeps.takeRequest huri htake
    exact ⟨heach', ⟨hkeeps'.netCheck, hkeeps'.current, hkeeps'.pin, hkeeps'.unsent⟩, by rwa [← htarget] at huri, hgrant'⟩
  | follows htake hsent hnext =>
    obtain ⟨hkeeps, huri, hgrant⟩ := hconfig
    obtain ⟨heach', hgrant'⟩ := guarded_send hc hkeeps huri hgrant htake (request_sends _ _ _) _ heach
    obtain ⟨hkeeps', _, hunsent, _⟩ := hkeeps.takeRequest huri htake
    rw [← append_assoc]
    refine ⟨(hgrant'.extend heach' fun e he => ?_).1, hkeeps'.follow hunsent (next_follow hnext).2.1 _ _⟩
    rw [mem_singleton.mp he]
    exact ⟨fun _ => rfl, fun uri huri => by cases huri⟩

theorem guarded_fetch (c : Crates) (hm : HeaderMap H) (process : Process) (req : FetchRequest) (check : Option NetCheck) :
    Guarded c check (fetch c hm process req check) [] := by
  refine ⟨each_nil _, ?_⟩
  rcases fetch_fresh process req check with ⟨_, h⟩ | ⟨s, h, hfresh⟩
  · rw [h]
    trivial
  · rw [h]
    exact ⟨hfresh.netCheck, hfresh.current, hfresh.pin, fun r hr => by cases hfresh.unsent.symm.trans hr⟩

/-- **Every send, every connection and every park of a fetch is for a host and a port that the grant was asked about,
    and admitted, in the same turn of the loop**, however it is redirected, parked and resumed. -/
theorem sent_only_where_granted (hc : UriAgrees c) (process : Process) (req : FetchRequest)
    (check : Option NetCheck) (inputs : List Input) :
    (∀ before e after uri, (run (step c hm) (fetch c hm process req check) inputs).2 = before ++ e :: after →
      e.uri = some uri → Granted check before uri) ∧
    ∀ p, (run (step c hm) (fetch c hm process req check) inputs).1 = .parked p → p.wants = .addresses →
      ∃ port, fetchParkedPort p = some port ∧ ∀ chk, check = some chk →
        ∃ target, grantAfter (run (step c hm) (fetch c hm process req check) inputs).2 = some target ∧
          chk target = .ok () ∧ target.port = port := by
  obtain ⟨heach, hconfig⟩ := fetch_invariant process req check (guarded_fetch c hm process req check)
    (fun _ _ _ _ h => guarded_move hc h) inputs
  refine ⟨fun before e after uri hlog => heach before e after hlog uri, fun p hp hwants => ?_⟩
  rw [hp] at hconfig
  exact ⟨(netTarget p.state.target).port, hconfig.1.parkedPort hwants,
    fun chk hchk => ⟨netTarget p.state.target, (hconfig.2 chk hchk).1, (hconfig.2 chk hchk).2, rfl⟩⟩

end

/-- Only `a.test` is granted. -/
def onlyA : NetCheck := fun target =>
  if target = { host := "a.test", port := 80 } then .ok () else .error { permission := "Net", resource := target.host }

open Sample

/-- A redirect to `b.test` sends one request, to `a.test`, and is denied. -/
theorem sent_only_where_granted_redirect : UriAgrees crates ∧ (∀ before e after uri,
        (run (step crates entryMap) (fetch crates entryMap process (get []) (some onlyA))
          (Sample.redirected ++ [Sample.turn])).2 = before ++ e :: after →
        e.uri = some uri → Granted (some onlyA) before uri) ∧
      ((run (step crates entryMap) (fetch crates entryMap process (get []) (some onlyA))
        (Sample.redirected ++ [Sample.turn])).2.filterMap Event.uri).map (·.host) = [some "a.test", some "a.test"] := by
  have hagrees : UriAgrees crates := by
    intro url uri _ h
    cases h
    exact ⟨rfl, rfl, rfl⟩
  exact ⟨hagrees, (sent_only_where_granted hagrees process (get []) (some onlyA) _).1, by decide +kernel⟩

end Oam.Fetch
