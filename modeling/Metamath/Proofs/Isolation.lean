import Mathlib.Data.List.Forall2
import Mathlib.Data.List.Induction
import Mathlib.Tactic.Tauto
import Metamath.Proofs.SearchSoundness
import Metamath.Search.Server

/-!
# Searches on one server

A server keeps the sessions of all its clients in one map and numbers them by one counter. It is
compared with a new server that receives only what concerns a single search: the request that
started it, and the later requests that name it. The answers are the same, apart from the number of
the search, whatever other requests come in between.

A search has one number on the one server and another one on the other, so requests and answers have
to be renumbered. An answer contains the number of its search in two places: as a member, and in the
message that a search is unknown.

What requests say about unknown searches depends on the past. A number is unknown if it was not
handed out, or if its search has been ended since; it is not handed out again.
-/

namespace Metamath.Search

/-- The search that a request names. A request to start a search names none. -/
def Request.search? : Request → Option Nat
  | .initSearch _ _ => none
  | .runTactic search _ _ => some search
  | .clearSearch search => some search

/-- The same request, naming another search. -/
def Request.renumber (search : Nat) : Request → Request
  | .initSearch name scope => .initSearch name scope
  | .runTactic _ state tactic => .runTactic search state tactic
  | .clearSearch _ => .clearSearch search

/-- The answers are the same, except that each has the number of its own search. -/
structure Response.SameUpTo (first second : Nat) (response other : Response) : Prop where
  search : (response.search = none ∧ other.search = none) ∨
    (response.search = some first ∧ other.search = some second)
  state : response.state = other.state
  stateId : response.stateId = other.stateId
  error : response.error = other.error ∨
    (response.error = some (Error.unknownSearch first).message ∧
      other.error = some (Error.unknownSearch second).message)

/-- The answer to a tactic in a session that exists. -/
def Response.ofResult (search : Nat) (session : Session) : Except Error Nat → Response
  | .ok stateId => .progress search session stateId
  | .error error => .refusal (some search) error

/-- A request and its answer. -/
abbrev Exchange := Request × Response

namespace Exchange

/-- The number that a request to start a search is answered with. -/
def handedOut? : Exchange → Option Nat
  | (.initSearch _ _, response) => response.search
  | _ => none

/-- The numbers that were handed out, in order. -/
def handedOut (exchanges : List Exchange) : List Nat :=
  exchanges.filterMap handedOut?

/-- There was a request to end the search after its number was handed out. -/
def Cleared (search : Nat) (exchanges : List Exchange) : Prop :=
  ∃ early response late, exchanges = early ++ (Request.clearSearch search, response) :: late ∧
    search ∈ handedOut early

theorem handedOut?_eq_none {request : Request} {search : Nat}
    (hsearch : request.search? = some search) (response : Response) :
    handedOut? (request, response) = none := by
  cases request with
  | initSearch name scope => cases hsearch
  | runTactic named state tactic => rfl
  | clearSearch named => rfl

theorem handedOut_concat (exchanges : List Exchange) (exchange : Exchange) :
    handedOut (exchanges ++ [exchange]) = handedOut exchanges ++ exchange.handedOut?.toList := by
  rw [handedOut, List.filterMap_append, handedOut]
  cases hlast : handedOut? exchange <;> simp [hlast]

theorem Cleared.mem_handedOut {search : Nat} {exchanges : List Exchange}
    (hcleared : Cleared search exchanges) : search ∈ handedOut exchanges := by
  obtain ⟨early, response, late, rfl, hmem⟩ := hcleared
  rw [handedOut, List.filterMap_append]
  exact List.mem_append_left _ hmem

theorem cleared_concat_iff {search : Nat} {exchanges : List Exchange} {request : Request}
    {response : Response} :
    Cleared search (exchanges ++ [(request, response)]) ↔
      Cleared search exchanges ∨
        (request = .clearSearch search ∧ search ∈ handedOut exchanges) := by
  refine ⟨?_, ?_⟩
  · rintro ⟨early, found, late, heq, hmem⟩
    rcases List.eq_nil_or_concat' late with rfl | ⟨init, last, rfl⟩
    · obtain ⟨rfl, hlast⟩ := List.append_inj' heq rfl
      cases hlast
      exact .inr ⟨rfl, hmem⟩
    · rw [← List.cons_append, ← List.append_assoc] at heq
      obtain ⟨rfl, -⟩ := List.append_inj' heq rfl
      exact .inl ⟨early, found, init, rfl, hmem⟩
  · rintro (⟨early, found, late, rfl, hmem⟩ | ⟨rfl, hmem⟩)
    · exact ⟨early, found, late ++ [(request, response)], by simp, hmem⟩
    · exact ⟨exchanges, response, [], rfl, hmem⟩

/-- The answers to the requests that name a search. -/
def answers (search : Nat) (exchanges : List Exchange) : List Response :=
  (exchanges.filter (·.1.search? == some search)).map Prod.snd

end Exchange

namespace Server

/-- The requests with their answers. -/
def exchanges (server : Server) (database : Database) : List Request → List Exchange
  | [] => []
  | request :: requests =>
    (request, (server.handle database request).2) ::
      (server.handle database request).1.exchanges database requests

/-- The server after a sequence of requests. -/
def after (server : Server) (database : Database) (requests : List Request) : Server :=
  requests.foldl (fun server request => (server.handle database request).1) server

/-- What a request can do to a server, and how it is answered. -/
inductive Handles (server : Server) (database : Database) : Request → Server → Response → Prop where
  | refused {name : Symbol} {scope : Option String} {error : Error} :
      Session.init database name = .error error →
      Handles server database (.initSearch name scope) server (.refusal none error)
  | started {name : Symbol} {scope : Option String} {session : Session} :
      Session.init database name = .ok session →
      Handles server database (.initSearch name scope)
        ⟨server.sessions.insert server.count session, server.count + 1⟩
        (.progress server.count session session.stateId)
  | unknown {request : Request} {search : Nat} :
      request.search? = some search → server.session? search = none →
      Handles server database request server (.refusal (some search) (.unknownSearch search))
  | ran {search state : Nat} {tactic : String} {session next : Session}
      {result : Except Error Nat} :
      server.session? search = some session →
      session.runTactic database.facts state tactic = (next, result) →
      Handles server database (.runTactic search state tactic)
        ⟨server.sessions.insert search next, server.count⟩ (.ofResult search next result)
  | cleared {search : Nat} {session : Session} :
      server.session? search = some session →
      Handles server database (.clearSearch search)
        ⟨server.sessions.erase search, server.count⟩ .empty

variable {server lone next : Server} {database : Database} {request : Request}
  {response : Response} {search k j : Nat} {session : Session}

theorem Handles.handle_eq (hhandles : server.Handles database request next response) :
    server.handle database request = (next, response) := by
  cases hhandles with
  | refused hinit => rw [handle, initSearch, hinit]
  | started hinit => rw [handle, initSearch, hinit]
  | unknown hsearch hnone =>
    cases request with
    | initSearch name scope => cases hsearch
    | runTactic named state tactic =>
      cases hsearch
      rw [handle, runTactic, hnone]
    | clearSearch named =>
      cases hsearch
      rw [handle, clearSearch, hnone]
  | @ran _ _ _ _ _ result hsession hrun =>
    rw [handle, runTactic, hsession]
    simp only [hrun]
    cases result <;> rfl
  | cleared hsession => rw [handle, clearSearch, hsession]

theorem exists_handles (server : Server) (database : Database) (request : Request) :
    ∃ next response, server.Handles database request next response := by
  cases request with
  | initSearch name scope =>
    cases hinit : Session.init database name with
    | error error => exact ⟨_, _, .refused hinit⟩
    | ok session => exact ⟨_, _, .started hinit⟩
  | runTactic search state tactic =>
    cases hsession : server.session? search with
    | none => exact ⟨_, _, .unknown rfl hsession⟩
    | some session =>
      cases hrun : session.runTactic database.facts state tactic with
      | mk next result => exact ⟨_, _, .ran hsession hrun⟩
  | clearSearch search =>
    cases hsession : server.session? search with
    | none => exact ⟨_, _, .unknown rfl hsession⟩
    | some session => exact ⟨_, _, .cleared hsession⟩

theorem session?_insert {count : Nat} :
    session? ⟨server.sessions.insert search session, count⟩ k =
      if k = search then some session else server.session? k := by
  rw [session?, Std.TreeMap.getElem?_insert]
  by_cases hk : k = search
  · simp [hk]
  · simp [hk, Ne.symm hk, session?]

theorem session?_erase :
    session? ⟨server.sessions.erase search, server.count⟩ k =
      if k = search then none else server.session? k := by
  rw [session?, Std.TreeMap.getElem?_erase]
  by_cases hk : k = search
  · simp [hk]
  · simp [hk, Ne.symm hk, session?]

/-! ### Numbers -/

/-- A number is handed out exactly if the counter moves on. -/
theorem Handles.handedOut? (hhandles : server.Handles database request next response) :
    (Exchange.handedOut? (request, response) = none ∧ next.count = server.count) ∨
      (Exchange.handedOut? (request, response) = some server.count ∧
        next.count = server.count + 1) := by
  cases hhandles with
  | started hinit => exact .inr ⟨rfl, rfl⟩
  | unknown hsearch hnone => exact .inl ⟨Exchange.handedOut?_eq_none hsearch _, rfl⟩
  | refused | ran | cleared => exact .inl ⟨rfl, rfl⟩

/-- Sessions come and go with the requests to start and to end them. -/
theorem Handles.session?_eq_none_iff (hhandles : server.Handles database request next response) :
    next.session? k = none ↔
      (server.session? k = none ∧ Exchange.handedOut? (request, response) ≠ some k) ∨
        request = .clearSearch k := by
  cases hhandles with
  | refused hinit => simp [Exchange.handedOut?, Response.refusal]
  | started hinit =>
    rw [session?_insert]
    by_cases hk : k = server.count
    · simp [hk, Exchange.handedOut?, Response.progress]
    · simp [hk, Ne.symm hk, Exchange.handedOut?, Response.progress]
  | unknown hsearch hnone =>
    by_cases hclear : request = .clearSearch k
    · subst hclear
      cases hsearch
      simp [hnone]
    · simp [Exchange.handedOut?_eq_none hsearch, hclear]
  | ran hsession hrun =>
    rw [session?_insert]
    split
    · rename_i hk
      simp [hk, hsession]
    · simp [Exchange.handedOut?]
  | cleared hsession =>
    rw [session?_erase]
    split
    · rename_i hk
      simp [hk]
    · rename_i hk
      simp [Ne.symm hk, Exchange.handedOut?]

theorem after_concat (server : Server) (database : Database) (requests : List Request)
    (request : Request) :
    server.after database (requests ++ [request]) =
      ((server.after database requests).handle database request).1 := by
  rw [after, List.foldl_append]
  rfl

theorem exchanges_concat (server : Server) (database : Database) (requests : List Request)
    (request : Request) :
    server.exchanges database (requests ++ [request]) = server.exchanges database requests ++
      [(request, ((server.after database requests).handle database request).2)] := by
  induction requests generalizing server with
  | nil => rfl
  | cons first rest ih =>
    rw [List.cons_append, exchanges, exchanges, List.cons_append, ih]
    rfl

/-- The numbers that have been handed out are those below the counter, each once and in order. -/
theorem handedOut_exchanges (database : Database) (requests : List Request) :
    Exchange.handedOut (new.exchanges database requests) =
      List.range (new.after database requests).count := by
  induction requests using List.reverseRecOn with
  | nil => rfl
  | append_singleton requests request ih =>
    obtain ⟨next, response, hhandles⟩ :=
      exists_handles (new.after database requests) database request
    rw [exchanges_concat, after_concat, hhandles.handle_eq, Exchange.handedOut_concat, ih]
    rcases hhandles.handedOut? with ⟨hnone, hcount⟩ | ⟨hsome, hcount⟩
    · rw [hnone, hcount]
      exact List.append_nil _
    · rw [hsome, hcount, List.range_succ]
      rfl

/-- A number has no session if it was never handed out or if its search has been ended. -/
theorem session?_after_eq_none_iff (database : Database) (requests : List Request) (k : Nat) :
    (new.after database requests).session? k = none ↔
      k ∉ Exchange.handedOut (new.exchanges database requests) ∨
        Exchange.Cleared k (new.exchanges database requests) := by
  induction requests using List.reverseRecOn with
  | nil => simp [after, new, session?, exchanges, Exchange.handedOut]
  | append_singleton requests request ih =>
    obtain ⟨next, response, hhandles⟩ :=
      exists_handles (new.after database requests) database request
    -- the next number is not that of a search that has been ended
    have hcleared : Exchange.Cleared k (new.exchanges database requests) →
        Exchange.handedOut? (request, response) ≠ some k := by
      intro hcleared hnext
      have hlt := hcleared.mem_handedOut
      rw [handedOut_exchanges, List.mem_range] at hlt
      rcases hhandles.handedOut? with ⟨hnone, -⟩ | ⟨hsome, -⟩
      · cases hnone.symm.trans hnext
      · cases hsome.symm.trans hnext
        exact Nat.lt_irrefl _ hlt
    have hclear : request = .clearSearch k →
        Exchange.handedOut? (request, response) ≠ some k := by
      rintro rfl
      exact nofun
    rw [exchanges_concat, after_concat, hhandles.handle_eq, hhandles.session?_eq_none_iff, ih,
      Exchange.handedOut_concat, Exchange.cleared_concat_iff, List.mem_append, Option.mem_toList]
    tauto

/-! ### Sessions -/

/-- Only a request that names a search changes its session, apart from the one that starts it. -/
theorem Handles.session?_eq (hhandles : server.Handles database request next response)
    (hsearch : request.search? ≠ some k) (hcount : k ≠ server.count) :
    next.session? k = server.session? k := by
  cases hhandles with
  | refused | unknown => rfl
  | started hinit => rw [session?_insert, if_neg hcount]
  | @ran search =>
    rw [session?_insert, if_neg]
    rintro rfl
    exact hsearch rfl
  | @cleared search =>
    rw [session?_erase, if_neg]
    rintro rfl
    exact hsearch rfl

/-- What a request does to the search that it names depends on the session of that search alone. -/
theorem Handles.mirror (hhandles : server.Handles database request next response)
    (hsearch : request.search? = some k) (hsame : server.session? k = lone.session? j) :
    ∃ next' response', lone.Handles database (request.renumber j) next' response' ∧
      next.session? k = next'.session? j ∧ response.SameUpTo k j response' := by
  cases hhandles with
  | refused | started => cases hsearch
  | unknown hnamed hnone =>
    cases hsearch.symm.trans hnamed
    refine ⟨lone, _, .unknown ?_ (hsame.symm.trans hnone), hsame,
      ⟨.inr ⟨rfl, rfl⟩, rfl, rfl, .inr ⟨rfl, rfl⟩⟩⟩
    cases request with
    | initSearch name scope => cases hsearch
    | runTactic named state tactic => rfl
    | clearSearch named => rfl
  | @ran search state tactic session next result hsession hrun =>
    cases hsearch
    refine ⟨_, _, .ran (hsame.symm.trans hsession) hrun, ?_, ?_⟩
    · rw [session?_insert, session?_insert, if_pos rfl, if_pos rfl]
    · cases result with
      | error error => exact ⟨.inr ⟨rfl, rfl⟩, rfl, rfl, .inl rfl⟩
      | ok stateId => exact ⟨.inr ⟨rfl, rfl⟩, rfl, rfl, .inl rfl⟩
  | cleared hsession =>
    cases hsearch
    refine ⟨_, _, .cleared (hsame.symm.trans hsession), ?_, ⟨.inl ⟨rfl, rfl⟩, rfl, rfl, .inl rfl⟩⟩
    rw [session?_erase, session?_erase, if_pos rfl, if_pos rfl]

/-- A search begins in the same way on all servers. -/
theorem Handles.mirror_started {name : Symbol} {scope : Option String}
    (hhandles : server.Handles database (.initSearch name scope) next response)
    (hsearch : response.search = some k) (lone : Server) :
    k < next.count ∧ ∃ next' response',
      lone.Handles database (.initSearch name scope) next' response' ∧
        next.session? k = next'.session? lone.count ∧ response.SameUpTo k lone.count response' := by
  cases hhandles with
  | refused hinit => cases hsearch
  | unknown hnamed hnone => cases hnamed
  | started hinit =>
    cases hsearch
    refine ⟨Nat.lt_succ_self _, _, _, .started hinit, ?_, ⟨.inr ⟨rfl, rfl⟩, rfl, rfl, .inl rfl⟩⟩
    rw [session?_insert, session?_insert, if_pos rfl, if_pos rfl]

/-- The answers about a search are those that a server with the same session gives to the requests
about this search alone. -/
theorem forall₂_answers (database : Database) (requests : List Request)
    (hcount : k < server.count) (hsame : server.session? k = lone.session? j) :
    List.Forall₂ (Response.SameUpTo k j)
      (Exchange.answers k (server.exchanges database requests))
      ((lone.exchanges database ((requests.filter (·.search? == some k)).map
        (·.renumber j))).map Prod.snd) := by
  induction requests generalizing server lone with
  | nil => exact .nil
  | cons request rest ih =>
    obtain ⟨next, response, hhandles⟩ := exists_handles server database request
    have hcount' : k < next.count := by
      rcases hhandles.handedOut? with ⟨-, hcounts⟩ | ⟨-, hcounts⟩ <;> omega
    rw [exchanges, hhandles.handle_eq, Exchange.answers]
    by_cases hsearch : request.search? = some k
    · obtain ⟨next', response', hhandles', hsame', hresponse⟩ := hhandles.mirror hsearch hsame
      rw [List.filter_cons_of_pos (by simpa using hsearch),
        List.filter_cons_of_pos (by simpa using hsearch), List.map_cons, List.map_cons, exchanges,
        hhandles'.handle_eq]
      exact .cons hresponse (ih hcount' hsame')
    · rw [List.filter_cons_of_neg (by simpa using hsearch),
        List.filter_cons_of_neg (by simpa using hsearch)]
      exact ih hcount' ((hhandles.session?_eq hsearch (Nat.ne_of_lt hcount)).trans hsame)

theorem map_fst_exchanges (server : Server) (database : Database) (requests : List Request) :
    (server.exchanges database requests).map Prod.fst = requests := by
  induction requests generalizing server with
  | nil => rfl
  | cons request rest ih => rw [exchanges, List.map_cons, ih]

/-- An exchange took place on the server that the exchanges before it led to. -/
theorem exists_handles_of_exchanges_eq {requests : List Request} {early late : List Exchange}
    (hexchanges : server.exchanges database requests = early ++ (request, response) :: late) :
    server.exchanges database (early.map Prod.fst) = early ∧
      ∃ next, (server.after database (early.map Prod.fst)).Handles database request next response ∧
        next.exchanges database (late.map Prod.fst) = late := by
  induction early generalizing server requests with
  | nil =>
    cases requests with
    | nil => cases hexchanges
    | cons first rest =>
      obtain ⟨next, found, hhandles⟩ := exists_handles server database first
      rw [exchanges, hhandles.handle_eq] at hexchanges
      cases hexchanges
      exact ⟨rfl, next, hhandles, by rw [map_fst_exchanges]⟩
  | cons exchange early ih =>
    cases requests with
    | nil => cases hexchanges
    | cons first rest =>
      rw [exchanges] at hexchanges
      obtain ⟨hfirst, hrest⟩ := List.cons.inj hexchanges
      obtain ⟨hearly, next, hhandles, hlate⟩ := ih hrest
      subst hfirst
      refine ⟨?_, next, hhandles, hlate⟩
      rw [List.map_cons, exchanges, hearly]

/-- What is seen of the searches on a new server. -/
structure Isolated (database : Database) (requests : List Request) : Prop where
  /-- searches are numbered in order -/
  numbered : Exchange.handedOut (new.exchanges database requests) =
    List.range (Exchange.handedOut (new.exchanges database requests)).length
  /-- a search has a number if it was started successfully -/
  started : ∀ name scope response,
    (Request.initSearch name scope, response) ∈ new.exchanges database requests →
    (response.error = none ↔ response.search.isSome)
  /-- the answers about a search are those of a server that knows of no other one -/
  independent : ∀ early name scope response late k,
    new.exchanges database requests = early ++ (.initSearch name scope, response) :: late →
    response.search = some k →
    List.Forall₂ (Response.SameUpTo k 0) (response :: Exchange.answers k late)
      ((new.exchanges database (.initSearch name scope ::
        ((late.map Prod.fst).filter (·.search? == some k)).map (·.renumber 0))).map Prod.snd)
  /-- a number that was not handed out or whose search was ended is unknown -/
  unknown : ∀ early request response late k,
    new.exchanges database requests = early ++ (request, response) :: late →
    request.search? = some k →
    k ∉ Exchange.handedOut early ∨ Exchange.Cleared k early →
    response = .refusal (some k) (.unknownSearch k) ∧
      new.after database (early.map Prod.fst ++ [request]) =
        new.after database (early.map Prod.fst)

/-- The searches on a new server are numbered from zero in the order of their start, and no number
is given twice. The answers to the requests that name a search are, up to the number, those of a new
server that receives only the request that started the search and the later requests that name it.
Requests that name a search which was never started or which has been ended are refused, and they
change no session. -/
theorem searches_isolated (database : Database) (requests : List Request) :
    Isolated database requests where
  numbered := by
    rw [handedOut_exchanges, List.length_range]
  started name scope response hmem := by
    obtain ⟨early, late, hexchanges⟩ := List.append_of_mem hmem
    obtain ⟨-, next, hhandles, -⟩ := exists_handles_of_exchanges_eq hexchanges
    cases hhandles with
    | refused hinit => exact iff_of_false nofun nofun
    | started hinit => exact iff_of_true rfl rfl
    | unknown hsearch hnone => cases hsearch
  independent early name scope response late k hexchanges hsearch := by
    obtain ⟨-, next, hhandles, hlate⟩ := exists_handles_of_exchanges_eq hexchanges
    obtain ⟨hcount, next', response', hhandles', hsame, hresponse⟩ :=
      hhandles.mirror_started hsearch new
    have hanswers := forall₂_answers database (late.map Prod.fst) hcount hsame
    rw [hlate] at hanswers
    rw [exchanges, hhandles'.handle_eq, List.map_cons]
    exact .cons hresponse hanswers
  unknown early request response late k hexchanges hsearch hunknown := by
    obtain ⟨hearly, next, hhandles, -⟩ := exists_handles_of_exchanges_eq hexchanges
    rw [← hearly, ← session?_after_eq_none_iff] at hunknown
    have heq := (Handles.unknown hsearch hunknown).handle_eq.symm.trans hhandles.handle_eq
    cases heq
    exact ⟨rfl, by rw [after_concat, hhandles.handle_eq]⟩

/-- Requests about several searches: one that is not started yet, one that cannot be started, and
one that is ended. -/
def interleaved : List Request :=
  [.runTactic 1 0 "[[ ]] wff T", .initSearch "th" none, .initSearch "wp" none,
    .initSearch "id" (some "main"), .runTactic 0 0 "[[ ]] wff T",
    .runTactic 1 0 "[[ ]] |- ( p -> p )", .clearSearch 1, .initSearch "th" none,
    .runTactic 1 1 "[[ ]] wff T"]

theorem searches_isolated_interleaved :
    Exchange.handedOut (new.exchanges Session.reflexivity interleaved) = [0, 1, 2] ∧
      ∃ early response late, new.exchanges Session.reflexivity interleaved =
          early ++ (.initSearch "id" (some "main"), response) :: late ∧
        response.search = some 1 ∧ (Exchange.answers 1 late).length = 3 ∧
        List.Forall₂ (Response.SameUpTo 1 0) (response :: Exchange.answers 1 late)
          ((new.exchanges Session.reflexivity [.initSearch "id" (some "main"),
            .runTactic 0 0 "[[ ]] |- ( p -> p )", .clearSearch 0,
            .runTactic 0 1 "[[ ]] wff T"]).map Prod.snd) := by
  have hsplit : new.exchanges Session.reflexivity interleaved =
      (new.exchanges Session.reflexivity interleaved).take 3 ++
        (.initSearch "id" (some "main"), ⟨some 1, some "[[ ]] |- ( p -> p )", some 0, none⟩) ::
          (new.exchanges Session.reflexivity interleaved).drop 4 := by decide +kernel
  refine ⟨by decide +kernel, _, _, _, hsplit, rfl, by decide +kernel, ?_⟩
  have hanswers := (searches_isolated Session.reflexivity interleaved).independent _ _ _ _ _ 1
    hsplit rfl
  rwa [List.map_drop, map_fst_exchanges] at hanswers

end Server

end Metamath.Search
