import Mathlib.Data.List.Basic

/-!
# Feature flags fetched from the server

`featureFlags.ts` asks the server for flags by message. A fetch posts its
request and awaits `serverAPI.nextMessageMatching(type, test)`: the first of
the messages the server sends after the post that has the reply's type and
passes the test. `ClientToServerAPI` is not under `src/`: the server's
messages are a parameter (`replies`), and a fetch still awaiting its reply
resolves to `none`. A flag without a name (as in OSS) is never fetched.

* `fetchFlag_resolves_to_answer`, `bulkFetchFeatureFlags_resolves_to_answer`:
  when the server answers a flag by its name, or a bulk fetch by its id, the
  fetch resolves to that answer as soon as one has come, however the server
  orders it among other messages.
-/

namespace Isl.FeatureFlags

/-- The requests of the client (`ClientToServerMessage`) that fetch flags. -/
inductive ClientMessage
  | fetchFeatureFlag (name : String)
  | fetchQeFlag (name : String)
  | bulkFetchFeatureFlags (names : List String) (id : String)

/-- The types of the replies the fetches await. -/
inductive MessageType
  | fetchedFeatureFlag
  | fetchedQeFlag
  | bulkFetchedFeatureFlags
  deriving DecidableEq

/-- The server's replies to the fetches (`ServerToClientMessage`); a
    `Record<string, boolean>` is a function to `Option Bool`. -/
inductive ServerMessage
  | fetchedFeatureFlag (name : String) (passes : Bool)
  | fetchedQeFlag (name : String) (passes : Bool)
  | bulkFetchedFeatureFlags (id : String) (result : String → Option Bool)

namespace ServerMessage

/-- `message.type`. -/
def type : ServerMessage → MessageType
  | fetchedFeatureFlag .. => .fetchedFeatureFlag
  | fetchedQeFlag .. => .fetchedQeFlag
  | bulkFetchedFeatureFlags .. => .bulkFetchedFeatureFlags

/-- `message.name`, of a reply for one flag. -/
def name : ServerMessage → Option String
  | fetchedFeatureFlag n _ | fetchedQeFlag n _ => some n
  | bulkFetchedFeatureFlags .. => none

/-- `message.id`, of a reply to a bulk fetch. -/
def id : ServerMessage → Option String
  | bulkFetchedFeatureFlags i _ => some i
  | fetchedFeatureFlag .. | fetchedQeFlag .. => none

/-- `response.passes`, of a reply for one flag. -/
def passes : ServerMessage → Option Bool
  | fetchedFeatureFlag _ p | fetchedQeFlag _ p => some p
  | bulkFetchedFeatureFlags .. => none

/-- `response.result`, of a reply to a bulk fetch. -/
def result : ServerMessage → Option (String → Option Bool)
  | bulkFetchedFeatureFlags _ r => some r
  | fetchedFeatureFlag .. | fetchedQeFlag .. => none

end ServerMessage

/-- `serverAPI.nextMessageMatching(type, test)`: the first of the server's
    messages of the type that passes the test. -/
def nextMessageMatching (type : MessageType) (test : ServerMessage → Bool)
    (replies : List ServerMessage) : Option ServerMessage :=
  replies.find? fun message => message.type = type && test message

/-- `fetchFeatureFlag` and `fetchQeFlag`, which differ only in the request they
    post and the type of the reply they await: the messages posted, and the
    flag once resolved. -/
def fetchFlag (request : String → ClientMessage) (type : MessageType) (name : Option String)
    (default_ : Option Bool) (replies : List ServerMessage) : List ClientMessage × Option Bool :=
  match name with
  | none => ([], some (default_.getD false))
  | some name =>
    ([request name],
      (nextMessageMatching type (fun message => message.name = some name) replies).bind
        ServerMessage.passes)

/-- `fetchFeatureFlag(name, default_)`. -/
def fetchFeatureFlag : Option String → Option Bool → List ServerMessage →
    List ClientMessage × Option Bool :=
  fetchFlag .fetchFeatureFlag .fetchedFeatureFlag

/-- `fetchQeFlag(name, default_)`. -/
def fetchQeFlag : Option String → Option Bool → List ServerMessage →
    List ClientMessage × Option Bool :=
  fetchFlag .fetchQeFlag .fetchedQeFlag

/-- `featureFlagAsync(name)` and `qeFlagAsync(name)`: `false` without a name,
    else the fetch. -/
def flagAsync (fetch : Option String → Option Bool → List ServerMessage →
      List ClientMessage × Option Bool)
    (name : Option String) (replies : List ServerMessage) : List ClientMessage × Option Bool :=
  match name with
  | none => ([], some false)
  | some name => fetch (some name) none replies

/-- `featureFlagAsync(name)`. -/
def featureFlagAsync : Option String → List ServerMessage → List ClientMessage × Option Bool :=
  flagAsync fetchFeatureFlag

/-- `qeFlagAsync(name)`. -/
def qeFlagAsync : Option String → List ServerMessage → List ClientMessage × Option Bool :=
  flagAsync fetchQeFlag

/-- `getFeatureFlag(name, default_)` and `getQeFlag(name, default_)`: the
    default (else `false`) without a name, else the cached flag. -/
def getFlag (async : Option String → List ServerMessage → List ClientMessage × Option Bool)
    (name : Option String) (default_ : Option Bool) (replies : List ServerMessage) :
    List ClientMessage × Option Bool :=
  match name with
  | none => ([], some (default_.getD false))
  | some name => async (some name) replies

/-- `getFeatureFlag(name, default_)`. -/
def getFeatureFlag : Option String → Option Bool → List ServerMessage →
    List ClientMessage × Option Bool :=
  getFlag featureFlagAsync

/-- `getQeFlag(name, default_)`. -/
def getQeFlag : Option String → Option Bool → List ServerMessage →
    List ClientMessage × Option Bool :=
  getFlag qeFlagAsync

/-- `bulkFetchFeatureFlags(names)`, given the `randomId()` it draws: the
    messages posted, and the record once resolved. -/
def bulkFetchFeatureFlags (names : List String) (id : String) (replies : List ServerMessage) :
    List ClientMessage × Option (String → Option Bool) :=
  ([.bulkFetchFeatureFlags names id],
    (nextMessageMatching .bulkFetchedFeatureFlags (fun message => message.id = some id)
      replies).bind ServerMessage.result)

/-! ### Replies -/

section Replies

variable {β : Type} {type : MessageType} {test : ServerMessage → Bool}
  {replies : List ServerMessage}

/-- The reply taken is one of the server's messages, of the type, passing the
    test. -/
theorem nextMessageMatching_some {m : ServerMessage}
    (h : nextMessageMatching type test replies = some m) :
    m ∈ replies ∧ m.type = type ∧ test m = true := by
  have := List.find?_some h
  simp only [Bool.and_eq_true, decide_eq_true_eq] at this
  exact ⟨List.mem_of_find?_eq_some h, this⟩

/-- When every message that could be taken carries `b`, the reply's field is
    `b` as soon as one has come. -/
theorem bind_nextMessageMatching (test : ServerMessage → Bool) {f : ServerMessage → Option β} {b : β}
    (h : ∀ m ∈ replies, m.type = type → test m = true → f m = some b) :
    (nextMessageMatching type test replies).bind f =
      if ∃ m ∈ replies, m.type = type ∧ test m = true then some b else none := by
  split
  · next hex =>
    have : (nextMessageMatching type test replies).isSome := by
      simpa [nextMessageMatching] using hex
    obtain ⟨m, hm⟩ := Option.isSome_iff_exists.1 this
    obtain ⟨hmem, htype, htest⟩ := nextMessageMatching_some hm
    rw [hm, Option.some_bind, h m hmem htype htest]
  · next hex =>
    have : nextMessageMatching type test replies = none := by
      simpa [nextMessageMatching] using hex
    rw [this, Option.none_bind]

end Replies

section Fetch

variable (request : String → ClientMessage) (type : MessageType) (name : String)
  (default_ : Option Bool)

/-- Once the server, which answers the flag `name` with `answer`, has replied,
    the fetch resolves to `answer`; until then it awaits. -/
theorem fetchFlag_resolves_to_answer (replies : List ServerMessage) (answer : Bool)
    (h : ∀ m ∈ replies, m.type = type → m.name = some name → m.passes = some answer) :
    fetchFlag request type (some name) default_ replies =
      ([request name],
        if ∃ m ∈ replies, m.type = type ∧ m.name = some name then some answer else none) := by
  have := bind_nextMessageMatching (fun m => m.name = some name) fun m hm ht hn =>
    h m hm ht (of_decide_eq_true hn)
  simpa [fetchFlag] using this

/-- A feature flag answered after a reply for another flag and one for the QE
    flag of the same name. -/
theorem fetchFeatureFlag_resolves_menu :
    (∀ m ∈ [ServerMessage.fetchedQeFlag "SmartActionsMenu" false, .fetchedFeatureFlag "other" false,
        .fetchedFeatureFlag "SmartActionsMenu" true],
      m.type = .fetchedFeatureFlag → m.name = some "SmartActionsMenu" → m.passes = some true) ∧
    fetchFlag .fetchFeatureFlag .fetchedFeatureFlag (some "SmartActionsMenu") none
        [ServerMessage.fetchedQeFlag "SmartActionsMenu" false, .fetchedFeatureFlag "other" false,
          .fetchedFeatureFlag "SmartActionsMenu" true] =
      ([.fetchFeatureFlag "SmartActionsMenu"],
        if ∃ m ∈ [ServerMessage.fetchedQeFlag "SmartActionsMenu" false,
            .fetchedFeatureFlag "other" false,
            .fetchedFeatureFlag "SmartActionsMenu" true],
          m.type = .fetchedFeatureFlag ∧ m.name = some "SmartActionsMenu"
        then some true else none) :=
  ⟨by decide, fetchFlag_resolves_to_answer _ _ _ _ _ _ (by decide)⟩

/-- Once the server, which answers the bulk fetch `id` with the record
    `answer`, has replied, the fetch resolves to it; until then it awaits. -/
theorem bulkFetchFeatureFlags_resolves_to_answer (names : List String) (id : String)
    (replies : List ServerMessage) (answer : String → Option Bool)
    (h : ∀ m ∈ replies, m.type = .bulkFetchedFeatureFlags → m.id = some id →
      m.result = some answer) :
    bulkFetchFeatureFlags names id replies =
      ([.bulkFetchFeatureFlags names id],
        if ∃ m ∈ replies, m.type = .bulkFetchedFeatureFlags ∧ m.id = some id then some answer
        else none) := by
  have := bind_nextMessageMatching (fun m => m.id = some id) fun m hm ht hi =>
    h m hm ht (of_decide_eq_true hi)
  simpa [bulkFetchFeatureFlags] using this

end Fetch

end Isl.FeatureFlags
