import Apixis.Library.Buckets
import Apixis.Library.Machine
import Apixis.Utils.PyError
import Mathlib.Algebra.Order.Ring.Unbundled.Rat

/-! `ApixHandlerRegistry` and the ways into it: `subscribe`, `register`,
`register_handler` and their inverses. Handler instances live on a heap and are
known by their position, since one instance may be shared, staged as a copy and
swapped back. An operation that raises carries the state it leaves behind. -/
namespace Apixis.HandlerRegistry
open PyError (raiseIf leaving)

inductive Number where
  | finite (q : ℚ)
  | infinite
  | nan
  /- An int that `math.isfinite` cannot convert. -/
  | huge
  deriving DecidableEq, Repr

/- `text` is what Python prints for it, `typeName` its type. -/
inductive Priority where
  | none
  | number (value : Number) (text : String)
  | boolean (b : Bool)
  | other (typeName : String)
  deriving DecidableEq, Repr

/- The bucket key equal to this value: `True == 1` and `1 == 1.0` as dict keys. -/
def Priority.key : Priority → Option ℚ
  | .number (.finite q) _ => some q
  | .boolean b => some (if b then 1 else 0)
  | _ => Option.none

inductive Slot where
  | none
  | text (name : String)
  | other
  deriving DecidableEq, Repr

/- `malformed`: no tuple, or not of length two. -/
inductive Between where
  | none
  | pair (left right : Slot)
  | malformed
  deriving DecidableEq, Repr

inductive Pattern where
  | text (s : String)
  | other
  deriving DecidableEq, Repr

inductive Patterns where
  | none
  | text (s : String)
  | items (l : List Pattern)
  deriving DecidableEq, Repr

inductive Callback where
  | none
  | function (id : Nat)
  | uncallable
  deriving DecidableEq, Repr

structure Callbacks where
  coreFunc : Callback
  onAccepted : Callback
  onHasError : Callback
  onError : Callback
  onCancelled : Callback
  deriving DecidableEq, Repr

structure Handler where
  name : String
  subscribe : Patterns
  filterEvent : Patterns
  priority : Priority
  betweenHandlers : Between
  registerOrder : Int
  stopWhenError : Bool
  timeOut : Option ℚ
  background : Bool
  callbacks : Callbacks
  deriving DecidableEq, Repr

structure Registry where
  heap : List Handler
  registry : Dict String Nat
  priorityBuckets : Dict ℚ (List String)
  cachedChain : Dict String (List String)
  registerOrder : Nat
  deriving DecidableEq, Repr

def initial : Registry := ⟨[],.empty,.empty,.empty,0⟩

abbrev Outcome := Except (PyError × Registry) Registry

def Registry.handler (r : Registry) (name : String) : Option Handler :=
  (r.registry.get name).bind (fun ref => r.heap[ref]?)

/- Iteration over the argument; a plain string yields its characters. -/
def Patterns.iterate : Patterns → Except PyError (List Pattern)
  | .none => .error ⟨.typeError,"'NoneType' object is not iterable"⟩
  | .text s => .ok (s.toList.map (fun c => .text (String.singleton c)))
  | .items l => .ok l

def Patterns.truthy : Patterns → Bool
  | .none => false
  | .text s => s != ""
  | .items l => !l.isEmpty

def Pattern.usable : Pattern → Bool
  | .text s => s != ""
  | .other => false

def Pattern.string? : Pattern → Option String
  | .text s => some s
  | .other => none

def normalisePatterns (patterns : Patterns) (argumentName : String) : Except PyError (List String) := do
  let supplied ← match patterns with
    | .text s => .ok [Pattern.text s]
    | patterns => patterns.iterate
  raiseIf supplied.isEmpty ⟨.valueError,argumentName ++ " cannot be empty."⟩
  raiseIf (supplied.any (fun p => !p.usable))
    ⟨.valueError,"Every pattern in " ++ argumentName ++ " must be a non-empty string."⟩
  return (supplied.filterMap Pattern.string?).eraseDups

def ofStrings (l : List String) : Patterns := .items (l.map .text)

section Matching
/- `fnmatchcase(event_name, pattern)`. -/
variable (fnmatchcase : String → String → Bool)

def anyMatches (event : String) : List Pattern → Except PyError Bool
  | [] => .ok false
  | .other :: _ => .error ⟨.typeError,"expected str, bytes or os.PathLike object"⟩
  | .text s :: rest => if fnmatchcase event s then .ok true else anyMatches event rest

def matchesHandler (handler : Handler) (event : String) : Except PyError Bool := do
  let subscribed ← anyMatches fnmatchcase event (← handler.subscribe.iterate)
  let filtered ← anyMatches fnmatchcase event (← handler.filterEvent.iterate)
  return subscribed && !filtered

/- `_iter_active_handler_names`. -/
def Registry.activeNames (r : Registry) : List String := Buckets.order r.priorityBuckets

def selectNames (r : Registry) (event : String) : List String → Except PyError (List String)
  | [] => .ok []
  | name :: rest => do
      let keep ← match r.handler name with
        | none => .ok false
        | some handler => matchesHandler fnmatchcase handler event
      let later ← selectNames r event rest
      return if keep then name :: later else later

def getHandlersChainForEvent (r : Registry) (event : String) :
    Except (PyError × Registry) (List String × Registry) := do
  leaving r (raiseIf (event == "") ⟨.valueError,"event_name must be a non-empty string."⟩)
  match r.cachedChain.get event with
  | some chain => return (chain,r)
  | none =>
      let chain ← leaving r (selectNames fnmatchcase r event r.activeNames)
      return (chain,{r with cachedChain := r.cachedChain.set event chain})

def lookupAll (r : Registry) : List String → Except PyError (List Nat)
  | [] => .ok []
  | name :: rest => match r.registry.get name with
      | none => .error ⟨.keyError,name⟩
      | some ref => do return ref :: (← lookupAll r rest)

def getHandlersForEvent (r : Registry) (event : String) :
    Except (PyError × Registry) (List Nat × Registry) := do
  let (chain,s) ← getHandlersChainForEvent fnmatchcase r event
  let refs ← leaving s (lookupAll s chain)
  return (refs,s)

def selectEvents (handler : Handler) : List String → Except PyError (List String)
  | [] => .ok []
  | event :: rest => do
      let drop ← matchesHandler fnmatchcase handler event
      let later ← selectEvents handler rest
      return if drop then event :: later else later

/- `_invalidate_matching_chains`: nothing is dropped before all names are checked. -/
def invalidateMatchingChains (r : Registry) (handler : Handler) : Except PyError Registry := do
  let needDelete ← selectEvents fnmatchcase handler r.cachedChain.keys
  return {r with cachedChain := needDelete.foldl Dict.erase r.cachedChain}

def positionIn (name : String) (key : ℚ) (bucket : List String) : Option (ℚ × Nat) :=
  (bucket.idxOf? name).map (fun i => (key,i))

def findHandlerPosition (r : Registry) (name : String) : Priority → Option (ℚ × Nat)
  | .none => r.priorityBuckets.entries.findSome? (fun e => positionIn name e.1 e.2)
  | priority => do
      let key ← priority.key
      positionIn name key (← r.priorityBuckets.get key)

def getHandlerPriority (r : Registry) (name : String) : Priority :=
  ((r.handler name).map Handler.priority).getD .none

def removeFromBucket (r : Registry) (name : String) : Registry :=
  match findHandlerPosition r name (getHandlerPriority r name) with
  | none => r
  | some (key,index) =>
      let bucket := (Buckets.bucket r.priorityBuckets key).eraseIdx index
      {r with priorityBuckets :=
        if bucket.isEmpty then r.priorityBuckets.erase key else r.priorityBuckets.set key bucket}

def notRegistered (name : String) : PyError :=
  ⟨.eventHandlerNotRegisteredError,"Handler `" ++ name ++ "` not registered."⟩

def notActive (name : String) : PyError :=
  ⟨.eventHandlerNotRegisteredError,"Handler `" ++ name ++ "` is not actively registered."⟩

def unregisterHandler (r : Registry) (name : String) (missingOk : Bool) : Except PyError Registry :=
  match r.handler name with
  | none => do
      raiseIf (!missingOk) (notRegistered name)
      return r
  | some handler => do
      let s ← invalidateMatchingChains fnmatchcase r handler
      let t := removeFromBucket s name
      return {t with registry := t.registry.erase name}

def Slot.malformed : Slot → Bool
  | .none => false
  | .text name => name == ""
  | .other => true

/- The position of a boundary that is given, or an error if it has none. -/
def boundaryPosition (r : Registry) : Slot → Except PyError (Option (ℚ × Nat))
  | .text name => match findHandlerPosition r name (getHandlerPriority r name) with
      | none => .error (notActive name)
      | some position => .ok (some position)
  | _ => .ok none

def misplaced : ℚ × Nat → ℚ × Nat → Bool
  | (leftPriority,leftIndex), (rightPriority,rightIndex) =>
      decide (leftPriority < rightPriority) ||
        (decide (leftPriority = rightPriority) && decide (rightIndex ≤ leftIndex))

def Slot.shown : Slot → String
  | .none => "None"
  | .text name => name
  | .other => ""

def validateBetweenHandlers (r : Registry) (name : String) : Between → Except PyError ℚ
  | .pair left right => do
      raiseIf (left == .none && right == .none)
        ⟨.valueError,"between_handlers cannot be (None, None)."⟩
      raiseIf (left.malformed || right.malformed)
        ⟨.valueError,"Boundary handler names must be non-empty strings or None."⟩
      raiseIf (left != .none && left == right) ⟨.valueError,
        "The left and right handlers in between_handlers cannot be the same handler."⟩
      raiseIf (left == .text name || right == .text name)
        ⟨.valueError,"A handler cannot use itself as an insertion boundary."⟩
      let leftPosition ← boundaryPosition r left
      let rightPosition ← boundaryPosition r right
      match leftPosition, rightPosition with
      | some leftAt, some rightAt =>
          raiseIf (misplaced leftAt rightAt) ⟨.valueError,
            "Handler `" ++ left.shown ++ "` must be before handler `" ++ right.shown ++ "`."⟩
          return rightAt.1
      | some leftAt, none => return leftAt.1
      | none, some rightAt => return rightAt.1
      | none, none => throw ⟨.valueError,"right_position can not be None."⟩
  | _ => .error ⟨.valueError,
      "between_handlers must be a tuple containing exactly two handler names."⟩

def numericPriority : Priority → Except PyError ℚ
  | .number (.finite q) _ => .ok q
  | .number .huge _ => .error ⟨.overflowError,"int too large to convert to float"⟩
  | .number _ _ => .error ⟨.valueError,"Handler priority must be finite."⟩
  | _ => .error ⟨.typeError,"Handler priority must be a number."⟩

def Callback.bad (callback : Callback) : Bool := callback == .uncallable

/- What the checks of `register_handler` hand on to the insertion. -/
structure Plan where
  subscriptions : List String
  filters : List String
  bucketPriority : ℚ
  deriving DecidableEq, Repr

def normaliseFilters (entry : Handler) : Except PyError (List String) :=
  if entry.filterEvent.truthy then normalisePatterns entry.filterEvent "filter_event" else .ok []

def bucketPriority (r : Registry) (entry : Handler) : Except PyError ℚ :=
  match entry.betweenHandlers with
  | .none => numericPriority entry.priority
  | between => validateBetweenHandlers r entry.name between

def checkEntry (r : Registry) (entry : Handler) (existOk : Bool) : Except PyError Plan := do
  raiseIf (entry.name == "") ⟨.valueError,"Handler name cannot be empty."⟩
  raiseIf ((r.registry.get entry.name).isSome && !existOk) ⟨.eventHandlerAlreadyRegisteredError,
    "Handler `" ++ entry.name ++ "` already registered."⟩
  raiseIf (entry.callbacks.coreFunc.bad || entry.callbacks.coreFunc == .none)
    ⟨.typeError,"Handler core_func must be callable."⟩
  raiseIf entry.callbacks.onAccepted.bad ⟨.typeError,"Handler on_accepted must be callable."⟩
  raiseIf entry.callbacks.onHasError.bad ⟨.typeError,"Handler on_has_error must be callable."⟩
  raiseIf entry.callbacks.onError.bad ⟨.typeError,"Handler on_error must be callable."⟩
  raiseIf entry.callbacks.onCancelled.bad ⟨.typeError,"Handler on_cancelled must be callable."⟩
  raiseIf (entry.priority != .none && entry.betweenHandlers != .none)
    ⟨.valueError,"between_handlers and priority cannot be set together."⟩
  let subscriptions ← normalisePatterns entry.subscribe "subscribe"
  let filters ← normaliseFilters entry
  let key ← bucketPriority r entry
  return ⟨subscriptions,filters,key⟩

/- `bucket.insert`, which clamps its index. -/
def insertAt (bucket : List String) (index : Nat) (name : String) : List String :=
  bucket.take index ++ name :: bucket.drop index

def indexOf (bucket : List String) (name : String) : Except PyError Nat :=
  match bucket.idxOf? name with
  | none => .error ⟨.valueError,"'" ++ name ++ "' is not in list"⟩
  | some index => .ok index

def insertIndex (bucket : List String) : Between → Except PyError Nat
  | .pair _ (.text right) => indexOf bucket right
  | .pair _ .other => .error ⟨.valueError,"item is not in list"⟩
  | .pair (.text left) .none => do return (← indexOf bucket left) + 1
  | .none => .ok bucket.length
  | _ => .error ⟨.valueError,"between_handlers cannot be (None, None)."⟩

def Handler.admitted (entry : Handler) (plan : Plan) (order : Nat) : Handler :=
  {entry with
    subscribe := ofStrings plan.subscriptions
    filterEvent := ofStrings plan.filters
    registerOrder := order}

def registerHandler (r : Registry) (ref : Nat) (existOk : Bool) : Outcome :=
  match r.heap[ref]? with
  | none => .error (⟨.typeError,"handler_entry must be an ApixEventHandler instance."⟩,r)
  | some entry => do
      let plan ← leaving r (checkEntry r entry existOk)
      let s ← leaving r (unregisterHandler fnmatchcase r entry.name true)
      let admitted := entry.admitted plan s.registerOrder
      let bucket := Buckets.bucket s.priorityBuckets plan.bucketPriority
      let entered : Registry := {s with
        heap := s.heap.set ref admitted
        registry := s.registry.set entry.name ref
        priorityBuckets := s.priorityBuckets.set plan.bucketPriority bucket}
      let index ← leaving entered (insertIndex bucket entry.betweenHandlers)
      let placed : Registry := {entered with
        priorityBuckets := entered.priorityBuckets.set plan.bucketPriority
          (insertAt bucket index entry.name)}
      let u ← leaving placed (invalidateMatchingChains fnmatchcase placed admitted)
      return {u with registerOrder := u.registerOrder + 1}

/- The arguments of `subscribe`. -/
structure Options where
  eventNames : List Pattern
  existOk : Bool
  priority : Priority
  betweenHandlers : Between
  filterEvent : Patterns
  stopWhenError : Option Bool
  timeOut : Option ℚ
  background : Option Bool
  deriving DecidableEq, Repr

inductive Subject where
  | instance (ref : Nat)
  | function (name : String) (callback : Callback)
  | nameless
  deriving DecidableEq, Repr

def rangeError (text : String) : PyError :=
  ⟨.valueError,"priority must be in the range [-9999, 9999], got " ++ text⟩

/- The check of `subscribe` itself, before there is a decorator. NaN passes it. -/
def checkRange : Priority → Except PyError Unit
  | .number (.finite q) text => raiseIf (decide (9999 < q) || decide (q < -9999)) (rangeError text)
  | .number .nan _ => .ok ()
  | .number _ text => .error (rangeError text)
  | .other typeName => .error ⟨.typeError,
      "'>' not supported between instances of '" ++ typeName ++ "' and 'int'"⟩
  | _ => .ok ()

def positive (timeOut : ℚ) : Option ℚ := if 0 < timeOut then some timeOut else none

def Handler.staged (entry : Handler) (options : Options) : Handler :=
  {entry with
    subscribe := .items options.eventNames
    filterEvent := match options.filterEvent with
      | .none => .items []
      | filters => filters
    priority := if options.priority = .none ∧ options.betweenHandlers = .none
      then .number (.finite 1) "1" else options.priority
    betweenHandlers := options.betweenHandlers
    stopWhenError := options.stopWhenError.getD entry.stopWhenError
    timeOut := match options.timeOut with
      | some t => positive t
      | none => entry.timeOut
    background := options.background.getD entry.background}

def newHandler (name : String) (callback : Callback) : Handler :=
  ⟨name,.items [],.items [],.none,.none,-1,true,none,false,⟨callback,.none,.none,.none,.none⟩⟩

def subscribe (r : Registry) (options : Options) (subject : Subject) : Outcome := do
  leaving r (checkRange options.priority)
  match subject with
  | .nameless => throw (⟨.attributeError,"object has no attribute '__name__'"⟩,r)
  | .function name callback =>
      leaving r (raiseIf callback.bad ⟨.typeError,"Handler functions must be callable."⟩)
      leaving r (raiseIf (callback == .none) ⟨.typeError,"core_func must be callable."⟩)
      let allocated := {r with heap := r.heap ++ [(newHandler name callback).staged options]}
      registerHandler fnmatchcase allocated r.heap.length options.existOk
  | .instance ref => match r.heap[ref]? with
      | none => throw (⟨.attributeError,"object has no attribute '__name__'"⟩,r)
      | some func =>
          -- the copy is registered first and swapped for the instance at the end
          let allocated := {r with heap := r.heap ++ [func.staged options]}
          let s ← registerHandler fnmatchcase allocated r.heap.length options.existOk
          let copied := (s.heap[r.heap.length]?).getD func
          return {s with heap := s.heap.set ref copied, registry := s.registry.set func.name ref}

/- `ApixEventHandler.register`. -/
def register (r : Registry) (ref : Nat) (options : Options) : Outcome :=
  match r.heap[ref]? with
  | none => .error (⟨.attributeError,"object has no attribute 'register'"⟩,r)
  | some self => subscribe fnmatchcase r
      {options with
        stopWhenError := some self.stopWhenError
        timeOut := self.timeOut
        background := some self.background} (.instance ref)

inductive Action where
  /- A new instance, with whatever its creator assigns before registering it. -/
  | create (handler : Handler)
  | subscribe (options : Options) (subject : Subject)
  | register (ref : Nat) (options : Options)
  | registerHandler (ref : Nat) (existOk : Bool)
  | unsubscribe (name : String) (missingOk : Bool)
  | unregister (ref : Nat) (missingOk : Bool)
  | unregisterHandler (name : String) (missingOk : Bool)
  /- `get_handlers_for_event`, or a query of the names only. -/
  | query (event : String)
  | queryNames (event : String)
  deriving DecidableEq, Repr

def perform (r : Registry) : Action → Outcome
  | .create handler => .ok {r with heap := r.heap ++ [handler]}
  | .subscribe options subject => subscribe fnmatchcase r options subject
  | .register ref options => register fnmatchcase r ref options
  | .registerHandler ref existOk => registerHandler fnmatchcase r ref existOk
  | .unsubscribe name missingOk => leaving r (unregisterHandler fnmatchcase r name missingOk)
  | .unregister ref missingOk => match r.heap[ref]? with
      | none => .error (⟨.attributeError,"object has no attribute 'unregister'"⟩,r)
      | some self => leaving r (unregisterHandler fnmatchcase r self.name missingOk)
  | .unregisterHandler name missingOk => leaving r (unregisterHandler fnmatchcase r name missingOk)
  | .query event => (getHandlersForEvent fnmatchcase r event).map Prod.snd
  | .queryNames event => (getHandlersChainForEvent fnmatchcase r event).map Prod.snd

/- The caller goes on whether the call returns or raises. -/
def step (r : Registry) (a : Action) : Option Registry := some (PyError.stateOf (perform fnmatchcase r a))

end Matching
end Apixis.HandlerRegistry
