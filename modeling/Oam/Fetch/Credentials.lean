/-
  Credentials never follow a cross-origin redirect.  The invariant is `Carrying`: the carried map is what `left` says,
  in closed form, of the headers that the fetch started with.
-/
import Oam.Fetch.Send

namespace Oam.Fetch

open List Headers Trace

/-! ## The redirects of a log -/

structure Redirected where
  origin : Url
  target : Url
  dropBody : Bool
  spent : Bool

section
variable {H : Type} {c : Crates} {hm : HeaderMap H}

def redirected : Event H → Option Redirected
  | .followed origin target dropBody spent => some { origin, target, dropBody, spent }
  | _ => none

def redirects (log : List (Event H)) : List Redirected := log.filterMap redirected

def hopUrl (first : Url) (rs : List Redirected) : Url := rs.foldl (fun _ r => r.target) first

def crossed (rs : List Redirected) : Bool := rs.any fun r => !originEq r.origin r.target

def dropped (rs : List Redirected) : Bool := rs.any (·.dropBody)

def spent (rs : List Redirected) : Bool := rs.any (·.spent)

/-- What is left under a name of the headers that the fetch started with. -/
def left (hm : HeaderMap H) (start : H) (rs : List Redirected) (name : String) : List Bytes :=
  if crossed rs ∧ name ∈ credentialHeaders then []
  else if dropped rs ∧ name ∈ bodyHeaders then []
  else if spent rs ∧ name = "transfer-encoding" then []
  else if spent rs ∧ name = "content-length" then [utf8 "0"]
  else hm.getAll start name

/-- The request has the carried headers, but for what the transport itself put in, and the framing of an empty body. -/
structure Dressed (hm : HeaderMap H) (log : List (Event H)) (carried : H) (req : Request H) : Prop where
  headers : ∀ name, name ≠ "transfer-encoding" → name ≠ "content-length" → name ≠ "host" →
    name ≠ "proxy-authorization" → hm.getAll req.headers name = hm.getAll carried name
  host : hm.getAll req.headers "host" = hm.getAll carried "host" ∨
    hm.getAll carried "host" = [] ∧ hm.getAll req.headers "host" = (hostValue req.uri).toList
  proxyAuthorization : hm.getAll req.headers "proxy-authorization" = hm.getAll carried "proxy-authorization" ∨
    hm.getAll carried "proxy-authorization" = [] ∧
      ∃ auth, .turn (some auth) ∈ log ∧ hm.getAll req.headers "proxy-authorization" = [auth]

variable {log : List (Event H)} {req : Request H}

theorem Dressed.mono {log' : List (Event H)} {carried : H} (h : Dressed hm log carried req)
    (hsub : ∀ e ∈ log, e ∈ log') : Dressed hm log' carried req :=
  ⟨h.headers, h.host, h.proxyAuthorization.imp_right fun ⟨hnone, auth, hturn, heq⟩ =>
    ⟨hnone, auth, hsub _ hturn, heq⟩⟩

/-! ## One redirect more -/

@[simp] theorem crossed_concat (rs : List Redirected) (r : Redirected) :
    crossed (rs ++ [r]) = (crossed rs || !originEq r.origin r.target) := by
  simp [crossed]

@[simp] theorem dropped_concat (rs : List Redirected) (r : Redirected) :
    dropped (rs ++ [r]) = (dropped rs || r.dropBody) := by
  simp [dropped]

@[simp] theorem spent_concat (rs : List Redirected) (r : Redirected) : spent (rs ++ [r]) = (spent rs || r.spent) := by
  simp [spent]

theorem left_concat (start : H) (rs : List Redirected) (origin target : Url) (dropBody : Bool) (name : String) :
    left hm start (rs ++ [⟨origin, target, dropBody, false⟩]) name =
      if name ∈ removed origin target dropBody then [] else left hm start rs name := by
  simp only [left, crossed_concat, dropped_concat, spent_concat, Bool.or_false]
  unfold removed
  by_cases hcred : name ∈ credentialHeaders
  · have hbody : name ∉ bodyHeaders := by
      revert name
      decide
    cases originEq origin target <;> cases crossed rs <;> simp [hcred, hbody]
  · by_cases hbody : name ∈ bodyHeaders
    · cases dropBody <;> cases dropped rs <;> simp [hcred, hbody]
    · simp [hcred, hbody]

variable {s : LoopState H}

theorem not_replayable_of_iterable (h : redirectBody s = .undiciIterable) : s.source ≠ .empty := by
  intro hempty
  unfold redirectBody at h
  rw [hempty] at h
  cases hrules : s.fetchRules <;> rw [hrules] at h <;> cases hundici : s.undiciHead <;> simp [hundici, BodySource.replayable] at h

variable {start : H}

/-! ## The invariant -/

@[simp] theorem redirects_append (log events : List (Event H)) :
    redirects (log ++ events) = redirects log ++ redirects events :=
  filterMap_append

structure Carrying (hm : HeaderMap H) (first : Url) (start : H) (log : List (Event H)) (s : LoopState H) : Prop where
  hops : s.hops = (redirects log).length
  limit : s.hops ≤ maxRedirects
  current : s.current = hopUrl first (redirects log)
  carried : ∀ name, hm.getAll s.carried name = left hm start (redirects log) name
  empty : dropped (redirects log) = true → s.source = .empty
  unsent : ∀ r, s.unsent = some r → Dressed hm log s.carried r ∧ (dropped (redirects log) = true → r.body = .empty)

/-- What is to hold of each event, given the log before it. -/
def Stays (hm : HeaderMap H) (first : Url) (start : H) (before : List (Event H)) : Event H → Prop
  | .sent hop req _ =>
    hop.number = (redirects before).length ∧ hop.number ≤ maxRedirects ∧ hop.url = hopUrl first (redirects before) ∧
      (∀ name, hm.getAll hop.carried name = left hm start (redirects before) name) ∧
      Dressed hm before hop.carried req ∧ (dropped (redirects before) = true → req.body = .empty)
  | .followed origin _ _ _ => origin = hopUrl first (redirects before)
  | _ => True

def Bland (events : List (Event H)) : Prop :=
  ∀ e ∈ events, redirected e = none ∧ ∀ hm first start before, Stays (H := H) hm first start before e

variable {events : List (Event H)}

theorem Bland.redirects (h : Bland events) : redirects events = [] :=
  filterMap_eq_nil_iff.mpr fun e he => (h e he).1

theorem Bland.each (h : Bland events) (first : Url) (start : H) (log : List (Event H)) :
    Each (fun before => Stays hm first start (log ++ before)) events :=
  each_of_forall fun before e he => (h e he).2 hm first start (log ++ before)

theorem Bland.append {first second : List (Event H)} (h : Bland first) (h' : Bland second) : Bland (first ++ second) :=
  fun e he => (mem_append.mp he).elim (h e) (h' e)

theorem bland_head (auth : Option Bytes) (check : Option NetCheck) (url : Url) :
    Bland (.turn auth :: asks check url : List (Event H)) := by
  intro e he
  rcases mem_cons.mp he with rfl | he
  · exact ⟨rfl, fun _ _ _ _ => trivial⟩
  · unfold asks at he
    split at he
    · rw [mem_singleton.mp he]
      exact ⟨rfl, fun _ _ _ _ => trivial⟩
    · cases he

theorem bland_parked (wants : Wants) (uri : Uri) : Bland [(.parked wants uri : Event H)] := by
  intro e he
  rw [mem_singleton.mp he]
  exact ⟨rfl, fun _ _ _ _ => trivial⟩

variable {first : Url}

variable (h : Carrying hm first start log s)

include h

theorem Carrying.bland (hb : redirects events = []) : Carrying hm first start (log ++ events) s := by
  have hsame : Fetch.redirects (log ++ events) = Fetch.redirects log := by
    rw [redirects_append, hb, append_nil]
  refine ⟨hsame ▸ h.hops, h.limit, hsame ▸ h.current, hsame ▸ h.carried, hsame ▸ h.empty, fun r hr => ?_⟩
  rw [hsame]
  exact ⟨(h.unsent r hr).1.mono fun e he => mem_append_left _ he, (h.unsent r hr).2⟩

omit h in
theorem dressed_hopHeaders {auth : Option Bytes} {headers : H} (h : hopHeaders hm s.carried auth = some headers)
    (hturn : .turn auth ∈ log) (hreq : req.headers = headers) : Dressed hm log s.carried req := by
  unfold hopHeaders at h
  split at h
  · cases h
    exact ⟨fun _ _ _ _ _ => by rw [hreq], .inl (by rw [hreq]), .inl (by rw [hreq])⟩
  next auth =>
  split at h
  · cases h
    exact ⟨fun _ _ _ _ _ => by rw [hreq], .inl (by rw [hreq]), .inl (by rw [hreq])⟩
  next habsent =>
  unfold HeaderMap.tryInsert at h
  split at h
  · cases h
  · cases h
    have hnone : hm.getAll s.carried "proxy-authorization" = [] := by simpa [HeaderMap.containsKey] using habsent
    refine ⟨fun name _ _ _ hname => by simp [hreq, hname], .inl (by simp [hreq]), .inr ⟨hnone, auth, hturn, ?_⟩⟩
    simp [hreq]

/-! ## A send -/

variable {built : List (Event H)}

/-- Taking the next request: it is dressed in what the hop carries, and after a hop that dropped the body it has
    none. -/
theorem Carrying.takeRequest {s' : LoopState H} {uri : Uri} {headers : H} {known : Bool}
    (hheaders : ∀ req : Request H, req.headers = headers → Dressed hm log s.carried req)
    (htake : takeRequest s uri headers known = .ok (s', req, built)) :
    Carrying hm first start log s' ∧ s'.unsent = none ∧ s'.carried = s.carried ∧ Dressed hm log s'.carried req ∧
      (dropped (redirects log) → req.body = .empty) ∧ Bland built := by
  rcases takeRequest_eq htake with ⟨hunsent, rfl, rfl⟩ | ⟨source, body, hunsent, hbuild, rfl, rfl, rfl⟩
  · obtain ⟨hdressed, hbody⟩ := h.unsent req hunsent
    exact ⟨⟨h.hops, h.limit, h.current, h.carried, h.empty, fun r hr => by cases hr⟩, rfl, rfl, hdressed, hbody,
      fun e he => by cases he⟩
  · have hempty : dropped (redirects log) → source = .empty ∧ body = .empty := fun hdropped => by
      rw [h.empty hdropped] at hbuild
      cases hbuild
      exact ⟨rfl, rfl⟩
    refine ⟨⟨h.hops, h.limit, h.current, h.carried, fun hd => (hempty hd).1, h.unsent⟩, hunsent, rfl,
      hheaders _ rfl, fun hd => (hempty hd).2, fun e he => ?_⟩
    rw [mem_singleton.mp he]
    exact ⟨rfl, fun _ _ _ _ => trivial⟩

omit h in
theorem redirects_sendEvents (hbuilt : Bland built) (sent : Sent H) (req : Request H) (reply : Reply H) :
    redirects (sendEvents s built sent req reply) = [] := by
  have hcheckouts : redirects (sent.checkouts.map Event.checkedOut : List (Event H)) = [] := by
    refine filterMap_eq_nil_iff.mpr fun e he => ?_
    obtain ⟨_, _, rfl⟩ := mem_map.mp he
    rfl
  rw [sendEvents, redirects_append, redirects_append, hbuilt.redirects, hcheckouts]
  rfl

theorem Carrying.sent (hbuilt : Bland built) (sent : Sent H) (req : Request H)
    (reply : Reply H) : Carrying hm first start (log ++ sendEvents s built sent req reply) s :=
  h.bland (redirects_sendEvents hbuilt sent req reply)

theorem Carrying.setResends (resends : Resends) : Carrying hm first start log { s with resends } :=
  ⟨h.hops, h.limit, h.current, h.carried, h.empty, h.unsent⟩

theorem Carrying.returns (hbuilt : Bland built)
    (hdressed : Dressed hm log s.carried req) (hbody : dropped (redirects log) → req.body = .empty)
    {sent : Sent H} (hsent : Sends hm req sent) {e : SendError H} (he : sent.outcome = .error e)
    {needed : NeedsLookup} (hneeded : e.lookupNeeded = some needed) :
    Carrying hm first start (log ++ sendEvents s built sent req (.came (.error e)))
      { s with unsent := e.returned } := by
  have hthere := h.sent hbuilt sent req (.came (.error e))
  obtain ⟨r, hr, huri, hredressed⟩ := hsent.returned e he needed hneeded
  refine ⟨hthere.hops, hthere.limit, hthere.current, hthere.carried, hthere.empty, fun r' hr' => ?_⟩
  obtain rfl : r = r' := Option.some.inj (hr.symm.trans hr')
  refine ⟨Dressed.mono ?_ fun e he => mem_append_left _ he, fun hdropped => ?_⟩
  · refine ⟨fun name hte hcl hhost hproxy =>
      (hredressed.headers name hte hcl hhost).trans (hdressed.headers name hte hcl hhost hproxy), ?_, ?_⟩
    · rw [huri]
      rcases hredressed.host with hsame | ⟨hnone, hset⟩
      · rw [hsame]
        exact hdressed.host
      · refine .inr ⟨?_, hset⟩
        rcases hdressed.host with hcarried | ⟨hcarried, _⟩
        · exact hcarried ▸ hnone
        · exact hcarried
    · rw [hredressed.headers "proxy-authorization" (by decide) (by decide) (by decide)]
      exact hdressed.proxyAuthorization
  rw [redirects_append, redirects_sendEvents hbuilt, append_nil] at hdropped
  rcases hredressed.body with hsame | hnone
  · exact hsame.trans (hbody hdropped)
  · exact hnone

theorem each_sendEvents (hbuilt : Bland built) (hdressed : Dressed hm log s.carried req)
    (hbody : dropped (redirects log) → req.body = .empty) (sent : Sent H) (reply : Reply H) : Each
    (fun before => Stays hm first start (log ++ before)) (sendEvents s built sent req reply) := by
  have hcheckouts : Bland (sent.checkouts.map Event.checkedOut : List (Event H)) := fun e he => by
    obtain ⟨_, _, rfl⟩ := mem_map.mp he
    exact ⟨rfl, fun _ _ _ _ => trivial⟩
  have hhead := hbuilt.append hcheckouts
  rw [sendEvents, each_append]
  refine ⟨hhead.each first start log, each_cons.mpr ⟨?_, each_nil _⟩⟩
  rw [append_nil]
  have hthere := h.bland hhead.redirects
  refine ⟨hthere.hops, hthere.limit, hthere.current, hthere.carried,
    hdressed.mono fun e he => mem_append_left _ he, ?_⟩
  rw [redirects_append, hhead.redirects, append_nil]
  exact hbody

theorem Carrying.follow (hunsent : s.unsent = none) (hlimit : s.hops < maxRedirects)
    (url : Url) (method : Method) (dropBody : Bool) : Carrying hm first start
    (log ++ [.followed s.current url dropBody (!dropBody && redirectBody s = .undiciIterable)])
    (follow hm s url method dropBody) := by
  have hlog : redirects (log ++ [.followed s.current url dropBody (!dropBody && redirectBody s = .undiciIterable)]) =
      redirects log ++ [⟨s.current, url, dropBody, !dropBody && redirectBody s = .undiciIterable⟩] := by
    rw [redirects_append]
    rfl
  refine ⟨?_, hlimit, ?_, fun name => ?_, fun hdropped => ?_, fun r hr => by cases hunsent.symm.trans hr⟩
  · rw [hlog, length_append, ← h.hops]
    rfl
  · rw [hlog, hopUrl, foldl_append]
    rfl
  · rw [hlog]
    have hbase : hm.getAll (apply hm s.carried s.current url dropBody) name =
        left hm start (redirects log ++ [⟨s.current, url, dropBody, false⟩]) name := by
      rw [getAll_apply, left_concat, h.carried]
    by_cases hspent : dropBody = false ∧ redirectBody s = .undiciIterable
    · obtain ⟨rfl, hiterable⟩ := hspent
      have hdropped : dropped (redirects log) = false := by
        by_contra hdropped
        exact not_replayable_of_iterable hiterable (h.empty (by simpa using hdropped))
      simp only [Fetch.follow, hiterable, Bool.not_false, decide_true, Bool.and_self, if_true, hm.getAll_insert,
        hm.getAll_remove]
      rw [hbase]
      simp only [left, crossed_concat, dropped_concat, spent_concat, Bool.or_false, Bool.or_true, hdropped]
      by_cases hcl : name = "content-length"
      · subst hcl
        simp [credentialHeaders]
      · by_cases hte : name = "transfer-encoding"
        · subst hte
          simp [credentialHeaders]
        · simp [hcl, hte]
    · have hnot : (!dropBody && decide (redirectBody s = .undiciIterable)) = false := by
        cases dropBody
        · simpa using hspent
        · rfl
      simp only [Fetch.follow, hnot]
      exact hbase
  · rw [hlog, dropped_concat, Bool.or_eq_true] at hdropped
    show (if _ then BodySource.empty else s.source) = .empty
    rcases hdropped with hbefore | hnow
    · rw [h.empty hbefore, ite_self]
    · rw [if_pos]
      simp only at hnow
      simp [hnow]

omit h

/-! ## The loop -/

/-- **The invariant.** -/
def Homebound (hm : HeaderMap H) (first : Url) (start : H) (config : Config H) (log : List (Event H)) : Prop :=
  Each (Stays hm first start) log ∧ match config with
    | .top s | .parked { state := s, .. } => Carrying hm first start log s
    | .sending s _ headers =>
      Carrying hm first start log s ∧ ∀ req : Request H, req.headers = headers → Dressed hm log s.carried req
    | .finished _ => True

theorem homebound_move {config config' : Config H} (h : Homebound hm first start config log)
    (hmove : Move c hm config config' events) : Homebound hm first start config' (log ++ events) := by
  obtain ⟨heach, hconfig⟩ := h
  cases hmove with
  | stays => simpa using ⟨heach, hconfig⟩
  | ends => exact ⟨by simpa using heach, trivial⟩
  | resumes => exact ⟨by simpa using heach, by simpa using hconfig⟩
  | turnEnds => exact ⟨each_append.mpr ⟨heach, (bland_head _ _ _).each _ _ _⟩, trivial⟩
  | @turnParks s auth uri p granted huri hstate =>
    subst hstate
    have hbland := (bland_head (H := H) auth p.state.netCheck p.state.target).append (bland_parked p.wants uri)
    exact ⟨each_append.mpr ⟨heach, hbland.each _ _ _⟩, hconfig.bland hbland.redirects⟩
  | @turnSends s auth uri headers granted huri hheaders =>
    have hbland := bland_head (H := H) auth s.netCheck s.target
    exact ⟨each_append.mpr ⟨heach, hbland.each _ _ _⟩, hconfig.bland hbland.redirects,
      fun req hreq => dressed_hopHeaders hheaders (mem_append_right _ mem_cons_self) hreq⟩
  | sendEnds htake =>
    obtain ⟨hcarrying, _, _, hdressed, hbody, hbuilt⟩ := hconfig.1.takeRequest hconfig.2 htake
    exact ⟨each_append.mpr ⟨heach, each_sendEvents hcarrying hbuilt hdressed hbody _ _⟩, trivial⟩
  | returns htake hsent hneeded =>
    obtain ⟨hcarrying, _, _, hdressed, hbody, hbuilt⟩ := hconfig.1.takeRequest hconfig.2 htake
    have hthere := hcarrying.returns hbuilt hdressed hbody (request_sends _ _ _) hsent hneeded
    rw [← append_assoc]
    exact ⟨each_append.mpr ⟨each_append.mpr ⟨heach, each_sendEvents hcarrying hbuilt hdressed hbody _ _⟩,
      (bland_parked _ _).each _ _ _⟩, hthere.bland (bland_parked _ _).redirects⟩
  | resends htake =>
    obtain ⟨hcarrying, _, hsame, hdressed, hbody, hbuilt⟩ := hconfig.1.takeRequest hconfig.2 htake
    refine ⟨each_append.mpr ⟨heach, each_sendEvents hcarrying hbuilt hdressed hbody _ _⟩,
      (hcarrying.sent hbuilt _ _ _).setResends _, fun req hreq => ?_⟩
    exact (hsame ▸ hconfig.2 req hreq).mono fun e he => mem_append_left _ he
  | follows htake hsent hnext =>
    obtain ⟨hcarrying, hunsent, _, hdressed, hbody, hbuilt⟩ := hconfig.1.takeRequest hconfig.2 htake
    rw [← append_assoc]
    refine ⟨each_append.mpr ⟨each_append.mpr ⟨heach, each_sendEvents hcarrying hbuilt hdressed hbody _ _⟩,
      each_cons.mpr ⟨?_, each_nil _⟩⟩, (hcarrying.sent hbuilt _ _ _).follow hunsent (next_follow hnext).1 _ _ _⟩
    rw [append_nil]
    exact (hcarrying.sent hbuilt _ _ _).current

theorem homebound_fetch {process : Process} {req : FetchRequest} {check : Option NetCheck}
    (h : fetch c hm process req check = .top s) :
    Homebound hm s.current s.carried (fetch c hm process req check) [] := by
  obtain ⟨hunsent, hhops⟩ : s.unsent = none ∧ s.hops = 0 := by
    rcases fetch_fresh process req check with ⟨_, h'⟩ | ⟨s', h', hfresh⟩
    · cases h.symm.trans h'
    · cases h.symm.trans h'
      exact ⟨hfresh.unsent, hfresh.hops⟩
  rw [h]
  refine ⟨each_nil _, hhops, hhops ▸ Nat.zero_le _, rfl, fun name => ?_, nofun,
    fun r hr => by cases hunsent.symm.trans hr⟩
  simp [left, redirects, crossed, dropped, spent]

/-- **Credentials stay at their origin, for good.** Each send carries what is `left` of the headers after the redirects
    before it; after one to another origin it has no authorization and no cookie. -/
theorem credentials_stay_home {process : Process} {req : FetchRequest} {check : Option NetCheck} {s : LoopState H}
    (h : fetch c hm process req check = .top s) (inputs : List Input) :
    (∀ before hop request reply after,
      (run (step c hm) (fetch c hm process req check) inputs).2 = before ++ .sent hop request reply :: after →
      hop.number = (redirects before).length ∧ hop.number ≤ 20 ∧ hop.url = hopUrl s.current (redirects before) ∧
      (∀ name, hm.getAll hop.carried name = left hm s.carried (redirects before) name) ∧
      (crossed (redirects before) = true → (∀ name ∈ credentialHeaders, hm.getAll hop.carried name = []) ∧
        hm.getAll request.headers "authorization" = [] ∧ hm.getAll request.headers "cookie" = [] ∧
        (∀ value ∈ hm.getAll request.headers "proxy-authorization", .turn (some value) ∈ before) ∧
        ∀ value ∈ hm.getAll request.headers "host", hostValue request.uri = some value) ∧
      (dropped (redirects before) = true → request.body = .empty)) ∧
    ∀ before origin target dropBody spent after,
      (run (step c hm) (fetch c hm process req check) inputs).2 =
        before ++ .followed origin target dropBody spent :: after →
      origin = hopUrl s.current (redirects before) := by
  have heach := (fetch_invariant process req check (homebound_fetch h) (fun _ _ _ _ => homebound_move) inputs).1
  refine ⟨fun before hop request reply after hlog => ?_,
    fun before origin target dropBody spent after hlog => heach before _ after hlog⟩
  obtain ⟨hnumber, hlimit, hurl, hcarried, hdressed, hbody⟩ := heach before _ after hlog
  refine ⟨hnumber, hlimit, hurl, hcarried, fun hcrossed => ?_, hbody⟩
  have hnone : ∀ name ∈ credentialHeaders, hm.getAll hop.carried name = [] := fun name hname => by
    rw [hcarried, left, if_pos ⟨hcrossed, hname⟩]
  refine ⟨hnone, ?_, ?_, fun value hvalue => ?_, fun value hvalue => ?_⟩
  · rw [hdressed.headers _ (by decide) (by decide) (by decide) (by decide)]
    exact hnone _ (by decide)
  · rw [hdressed.headers _ (by decide) (by decide) (by decide) (by decide)]
    exact hnone _ (by decide)
  · rcases hdressed.proxyAuthorization with hsame | ⟨_, _, hturn, hset⟩
    · rw [hsame, hnone _ (by decide)] at hvalue
      cases hvalue
    · rw [hset] at hvalue
      rw [mem_singleton.mp hvalue]
      exact hturn
  · rcases hdressed.host with hsame | ⟨_, hset⟩
    · rw [hsame, hnone _ (by decide)] at hvalue
      cases hvalue
    · rw [hset] at hvalue
      exact Option.mem_toList.mp hvalue

end

def carriedNames : Event { entries : List Entry // (entries.map (·.1)).Nodup } → Option (List String)
  | .sent hop _ _ => some ((entryMap.iter hop.carried).map (·.1))
  | _ => none

open Sample

/-- The log of a GET of `a.test` that is redirected to `b.test`. -/
def redirectedGet : List (Event { entries : List Entry // (entries.map (·.1)).Nodup }) :=
  (run (step crates entryMap)
    (fetch crates entryMap process
      (get [("x-a", "1"), ("authorization", "2"), ("x-b", "3"), ("x-c", "4")]) none)
    (Sample.redirected ++ [Sample.turn, Sample.answered 200 []])).2

theorem credentials_stay_home_redirected : ∃ s, fetch crates entryMap process
        (get [("x-a", "1"), ("authorization", "2"), ("x-b", "3"), ("x-c", "4")]) none = .top s ∧
      ∀ before hop request reply after, redirectedGet = before ++ .sent hop request reply :: after →
        ∀ name, entryMap.getAll hop.carried name = left entryMap s.carried (redirects before) name := by
  have htop : (match fetch crates entryMap process
      (get [("x-a", "1"), ("authorization", "2"), ("x-b", "3"), ("x-c", "4")]) none with
      | .top _ => true
      | _ => false) = true := by
    decide +kernel
  cases hfetch : fetch crates entryMap process
      (get [("x-a", "1"), ("authorization", "2"), ("x-b", "3"), ("x-c", "4")]) none with
  | top s =>
    exact ⟨s, rfl, fun before hop request reply after hlog =>
      ((credentials_stay_home hfetch _).1 before hop request reply after hlog).2.2.2.1⟩
  | _ =>
    rw [hfetch] at htop
    cases htop

/-- Taking authorization out moves the last name into its place: `x-c` was behind `x-b`. -/
theorem order_changes :
    redirectedGet.filterMap carriedNames = [["x-a", "authorization", "x-b", "x-c"], ["x-a", "x-c", "x-b"]] := by
  decide +kernel

end Oam.Fetch
