import Ventstream.Library.Decimal
import Ventstream.Redis.Views

/-! # Views in source order

The version of a source is a field of its manifest, and the manifest is written anew by
every command that is accepted. A command without a version so forgets the version that
was there. Within a script the manifest is looked up once: when the first command of a
source is stale, the next one finds no version at all. Where neither happens, the versions
that are accepted for a source never go down.
-/

namespace Ventstream.Redis

open Library Library.Program Library.Redis List

def ofSource (target sourceId : String) (cmds : List ViewCommand) : List ViewCommand :=
  cmds.filter fun cmd => cmd.target = target ∧ cmd.sourceId = sourceId

def storedVersion (keys : KeyPrefix) (space : Keyspace) (target sourceId : String) :
    Option String :=
  (fieldOf (manifestKey keys target sourceId) "version" space).toOption.join

def IsBelow (stored : Option String) (cmd : ViewCommand) : Prop :=
  ∃ floor version, stored = some (toString floor) ∧ cmd.version = some version ∧ version < floor

/-- The commands of a script that keep a source in order. The store takes their documents, none
    lacks a version once its source has one, and when the first of a source is below the version
    that is stored, the second is not. -/
structure Orderly (keys : KeyPrefix) (format : Format) (complaint : String → Option String)
    (space : Keyspace) (cmds : List ViewCommand) : Prop where
  storable : ∀ cmd ∈ cmds, Storable format complaint cmd
  versioned : ∀ target sourceId, (storedVersion keys space target sourceId).isSome →
    ∀ cmd ∈ ofSource target sourceId cmds, cmd.version.isSome
  staysVersioned : ∀ target sourceId, (ofSource target sourceId cmds).Pairwise
    fun earlier later => earlier.version.isSome → later.version.isSome
  recovers : ∀ target sourceId first second rest,
    ofSource target sourceId cmds = first :: second :: rest →
    IsBelow (storedVersion keys space target sourceId) first →
    ¬ IsBelow (storedVersion keys space target sourceId) second

/-- No command goes back behind an earlier one of its source. -/
def InOrder (history : List ViewCommand) : Prop :=
  history.Pairwise fun earlier later =>
    earlier.target = later.target → earlier.sourceId = later.sourceId →
    ∀ older newer, earlier.version = some older → later.version = some newer → older ≤ newer

variable {keys : KeyPrefix} {format : Format} {complaint : String → Option String} {latest : Latest}
  {cmd : ViewCommand}

section

variable {space : Keyspace} {start : Latest} {tables after : Tables} {rest : List ViewCommand}

theorem isStale_iff : isStale (some (toString floor)) (some version) ↔ version < floor := by
  rw [← toString_lt_iff, isStale, storedIsNewer]
  split <;> simp

def Latest.version (latest : Latest) (target sourceId : String) : Option Nat :=
  (latest target sourceId).bind (·.version)

/-- The version of a source does not go down with a command, nor is it lost. -/
def Rises (latest : Latest) (cmd : ViewCommand) : Prop :=
  ∀ floor, latest.version cmd.target cmd.sourceId = some floor →
    ∃ version, cmd.version = some version ∧ floor ≤ version

def RisesAll : Latest → List ViewCommand → Prop
  | _, [] => True
  | latest, cmd :: rest => Rises latest cmd ∧ RisesAll (latest.accept cmd) rest

def Below (start : Latest) (target sourceId : String) (cmd : ViewCommand) : Prop :=
  ∃ floor version, start.version target sourceId = some floor ∧ cmd.version = some version ∧
    version < floor

/-- What the commands that a script has yet to try keep to. A source whose manifest was looked up
    in vain for the tables has had a stale command. -/
structure Due (keys : KeyPrefix) (start latest : Latest) (tables : Tables)
    (rest : List ViewCommand) : Prop where
  versioned : ∀ target sourceId, (latest.version target sourceId).isSome →
    ∀ cmd ∈ ofSource target sourceId rest, cmd.version.isSome
  staysVersioned : ∀ target sourceId, (ofSource target sourceId rest).Pairwise
    fun earlier later => earlier.version.isSome → later.version.isSome
  fresh : ∀ target sourceId, tables.loaded (manifestKey keys target sourceId) = false →
    ∀ first second more, ofSource target sourceId rest = first :: second :: more →
    Below start target sourceId first → ¬ Below start target sourceId second
  blind : ∀ target sourceId, tables.loaded (manifestKey keys target sourceId) = true →
    tables.manifests (manifestKey keys target sourceId) = none →
    ∀ first more, ofSource target sourceId rest = first :: more → ¬ Below start target sourceId first

theorem ofSource_cons_self : ofSource cmd.target cmd.sourceId (cmd :: rest) =
    cmd :: ofSource cmd.target cmd.sourceId rest :=
  filter_cons_of_pos (by simp)

theorem ofSource_cons_of_ne (other : ¬ cmd.Of target sourceId) :
    ofSource target sourceId (cmd :: rest) = ofSource target sourceId rest := by
  refine filter_cons_of_neg ?_
  rw [decide_eq_true_eq]
  exact fun ⟨isTarget, isSource⟩ => other ⟨isTarget.symm, isSource.symm⟩

variable {manifest : Manifest}

theorem below_of_stale (sees : Sees keys tables latest cmd manifest)
    (isStale : isStale manifest.version cmd.version) :
    Below latest cmd.target cmd.sourceId cmd := by
  rcases sees with rfl | ⟨rfl, -, -⟩
  · unfold Latest.manifest at isStale
    cases isFloor : (latest cmd.target cmd.sourceId).bind (·.version) with
    | none =>
      rw [isFloor] at isStale
      cases isStale
    | some floor =>
      cases isVersion : cmd.version with
      | none =>
        rw [isFloor, isVersion] at isStale
        cases isStale
      | some version =>
        rw [isFloor, isVersion] at isStale
        exact ⟨floor, version, isFloor, isVersion, isStale_iff.mp isStale⟩
  · cases isStale

theorem version_settle_of_ne {accepted target sourceId} (other : ¬ cmd.Of target sourceId) :
    (latest.settle cmd accepted).version target sourceId = latest.version target sourceId := by
  cases accepted with
  | false => rfl
  | true => exact congrArg (Option.bind · _) (Latest.accept_of_ne other)

theorem Tried.untouched {manifest accepted}
    (tried : Tried keys space start latest tables cmd manifest accepted after)
    (other : ¬ cmd.Of target sourceId) :
    after.loaded (manifestKey keys target sourceId) =
        tables.loaded (manifestKey keys target sourceId) ∧
      after.manifests (manifestKey keys target sourceId) =
        tables.manifests (manifestKey keys target sourceId) := by
  have notName : manifestKey keys target sourceId ≠ cmd.manifestName keys := fun same =>
    other (manifestKey_inj same)
  rw [tried.loaded, tried.manifests, Function.update_of_ne notName]
  refine ⟨rfl, ?_⟩
  split
  · rw [Function.update_of_ne notName]
  · rfl

section

variable (agrees : Agrees keys space start latest tables)
  (due : Due keys start latest tables (cmd :: rest))
  (sees : Sees keys tables latest cmd manifest)
include agrees due sees

theorem rises_of_accepted
    (notStale : isStale manifest.version cmd.version = false) : Rises latest cmd := by
  intro floor isFloor
  have isVersioned := due.versioned cmd.target cmd.sourceId (by rw [isFloor]; rfl) cmd
    (ofSource_cons_self ▸ mem_cons_self)
  obtain ⟨version, isVersion⟩ := Option.isSome_iff_exists.mp isVersioned
  refine ⟨version, isVersion, not_lt.mp fun below => ?_⟩
  rcases sees with rfl | ⟨rfl, isLoaded, isUnknown⟩
  · have stale : isStale ((latest.version cmd.target cmd.sourceId).map toString)
        cmd.version := by
      rw [isFloor, isVersion]
      exact isStale_iff.mpr below
    cases notStale.symm.trans stale
  · have isStart := agrees.unknown cmd.target cmd.sourceId isUnknown
    refine due.blind cmd.target cmd.sourceId isLoaded isUnknown cmd _
      ofSource_cons_self ⟨floor, version, ?_, isVersion, below⟩
    rw [Latest.version, ← isStart]
    exact isFloor

theorem Due.blind_of_stale (isStale : isStale manifest.version cmd.version)
    (isUnknown : tables.manifests (cmd.manifestName keys) = none)
    (next : ofSource cmd.target cmd.sourceId rest = first :: more) :
    ¬ Below start cmd.target cmd.sourceId first := by
  have isBelow : Below start cmd.target cmd.sourceId cmd := by
    have below := below_of_stale sees isStale
    rwa [Below, Latest.version, agrees.unknown _ _ isUnknown] at below
  cases isLoaded : tables.loaded (cmd.manifestName keys) with
  | true => exact absurd isBelow (due.blind _ _ isLoaded isUnknown cmd _ ofSource_cons_self)
  | false =>
    refine due.fresh _ _ isLoaded cmd first more ?_ isBelow
    rw [ofSource_cons_self, next]

theorem Due.step {accepted : Bool}
    (tried : Tried keys space start latest tables cmd manifest accepted after) :
    Due keys start (latest.settle cmd accepted) after rest where
  versioned target sourceId isSome later member := by
    by_cases this : cmd.Of target sourceId
    · obtain ⟨rfl, rfl⟩ := this
      cases accepted with
      | false =>
        exact due.versioned _ _ isSome later (ofSource_cons_self ▸ mem_cons_of_mem _ member)
      | true =>
        have pairs := due.staysVersioned cmd.target cmd.sourceId
        rw [ofSource_cons_self] at pairs
        refine (pairwise_cons.mp pairs).1 later member ?_
        rwa [Latest.settle, if_pos rfl, Latest.version, Latest.accept_self] at isSome
    · rw [version_settle_of_ne this] at isSome
      exact due.versioned target sourceId isSome later ((ofSource_cons_of_ne this).symm ▸ member)
  staysVersioned target sourceId :=
    (due.staysVersioned target sourceId).sublist ((sublist_cons_self _ _).filter _)
  fresh target sourceId isFresh first second more next := by
    by_cases this : cmd.Of target sourceId
    · obtain ⟨rfl, rfl⟩ := this
      rw [tried.loaded, ViewCommand.manifestName, Function.update_self] at isFresh
      cases isFresh
    · exact due.fresh target sourceId ((tried.untouched this).1.symm.trans isFresh) first second more
        ((ofSource_cons_of_ne this).trans next)
  blind target sourceId isLoaded isUnknown first more next := by
    by_cases this : cmd.Of target sourceId
    · obtain ⟨rfl, rfl⟩ := this
      rw [tried.manifests] at isUnknown
      cases accepted with
      | true =>
        rw [if_pos rfl, ViewCommand.manifestName, Function.update_self] at isUnknown
        cases isUnknown
      | false =>
        have isStale : isStale manifest.version cmd.version := by
          simpa using tried.verdict
        exact due.blind_of_stale agrees sees isStale isUnknown next
    · obtain ⟨sameLoaded, sameManifests⟩ := tried.untouched this
      exact due.blind target sourceId (sameLoaded.symm.trans isLoaded)
        (sameManifests.symm.trans isUnknown) first more ((ofSource_cons_of_ne this).trans next)

end

theorem simulateAll_rises (mirrors : Mirrors keys format space start) :
    ∀ {latest tables}, Agrees keys space start latest tables →
    Due keys start latest tables cmds →
    ∀ {verdicts later}, exec (simulateAll keys ⟨format, 0, complaint⟩ tables cmds) space =
        (.ok verdicts, later) →
      RisesAll latest (accepted cmds verdicts) := by
  induction cmds with
  | nil =>
    intro latest tables agrees due verdicts later ran
    cases ran
    trivial
  | cons cmd rest ih =>
    intro latest tables agrees due verdicts later ran
    obtain ⟨⟨isAccepted, after⟩, between, tries, further⟩ := exec_bind_inv ran
    obtain ⟨rfl, manifest, sees, tried⟩ := simulate_spec mirrors agrees tries
    obtain ⟨others, last, simulates, ends⟩ := exec_bind_inv further
    cases ends
    have later := ih tried.agrees (due.step agrees sees tried) simulates
    cases isAccepted with
    | false => exact later
    | true =>
      have notStale : isStale manifest.version cmd.version = false := by
        simpa using tried.verdict.symm
      exact ⟨rises_of_accepted agrees due sees notStale, later⟩

section

variable (mirrors : Mirrors keys format space latest)

include mirrors

theorem storedVersion_eq (target sourceId : String) :
    storedVersion keys space target sourceId = (latest.version target sourceId).map toString := by
  rw [storedVersion, (mirrors.manifest target sourceId).version]
  rfl

theorem isBelow_of_below (below : Below latest target sourceId cmd) :
    IsBelow (storedVersion keys space target sourceId) cmd := by
  obtain ⟨floor, version, isFloor, isVersion, less⟩ := below
  exact ⟨floor, version, by rw [storedVersion_eq mirrors, isFloor]; rfl, isVersion, less⟩

theorem Orderly.due (orderly : Orderly keys format complaint space cmds) :
    Due keys latest latest .new cmds where
  versioned target sourceId isSome := by
    refine orderly.versioned target sourceId ?_
    rwa [storedVersion_eq mirrors, Option.isSome_map]
  staysVersioned := orderly.staysVersioned
  fresh target sourceId _ first second more next firstBelow secondBelow :=
    orderly.recovers target sourceId first second more next (isBelow_of_below mirrors firstBelow)
      (isBelow_of_below mirrors secondBelow)
  blind := nofun

end

end

section

variable {history cmds : List ViewCommand}

/-- The commands so far are in order, and none is above the version of its source. -/
structure Rising (history : List ViewCommand) (latest : Latest) : Prop where
  inOrder : InOrder history
  bounded : ∀ earlier ∈ history, ∀ version, earlier.version = some version →
    ∃ floor, latest.version earlier.target earlier.sourceId = some floor ∧ version ≤ floor

theorem Rising.accept (rising : Rising history latest) (rises : Rises latest cmd) :
    Rising (history ++ [cmd]) (latest.accept cmd) where
  inOrder := by
    refine pairwise_append.mpr ⟨rising.inOrder, pairwise_singleton _ _, ?_⟩
    intro earlier mem later isLast sameTarget sameSource older newer isOlder isNewer
    obtain rfl := mem_singleton.mp isLast
    obtain ⟨floor, isFloor, below⟩ := rising.bounded earlier mem older isOlder
    rw [sameTarget, sameSource] at isFloor
    obtain ⟨version, isVersion, above⟩ := rises floor isFloor
    cases isNewer.symm.trans isVersion
    exact below.trans above
  bounded earlier mem version isVersion := by
    by_cases this : earlier.target = cmd.target ∧ earlier.sourceId = cmd.sourceId
    · have isLatest : (latest.accept cmd).version earlier.target earlier.sourceId =
          cmd.version := by
        rw [Latest.version, this.1, this.2, Latest.accept_self]
        rfl
      rw [isLatest]
      rcases mem_append.mp mem with old | isLast
      · obtain ⟨floor, isFloor, below⟩ := rising.bounded earlier old version isVersion
        rw [this.1, this.2] at isFloor
        obtain ⟨newer, isNewer, above⟩ := rises floor isFloor
        exact ⟨newer, isNewer, below.trans above⟩
      · obtain rfl := mem_singleton.mp isLast
        exact ⟨version, isVersion, le_refl _⟩
    · rw [Latest.version, Latest.accept_of_ne this]
      rcases mem_append.mp mem with old | isLast
      · exact rising.bounded earlier old version isVersion
      · obtain rfl := mem_singleton.mp isLast
        exact absurd ⟨rfl, rfl⟩ this

theorem Rising.acceptAll (rising : Rising history latest) (rises : RisesAll latest cmds) :
    Rising (history ++ cmds) (cmds.foldl Latest.accept latest) := by
  induction cmds generalizing history latest with
  | nil => rwa [append_nil]
  | cons cmd rest ih =>
    have next := ih (rising.accept rises.1) rises.2
    rwa [append_assoc] at next

theorem rising_step
    (step : ViewStep keys format complaint (Orderly keys format complaint) world later)
    (mirrors : Mirrors keys format world.space world.latest)
    (rising : Rising world.history world.latest) : Rising later.history later.latest := by
  cases step with
  | pipeline fences cmds orderly =>
    rw [latest_runPipeline, runPipeline]
    refine rising.acceptAll ?_
    rcases viewPipeline_cases mirrors fences orderly.storable with
      ⟨error, fails⟩ | ⟨verdicts, counts, after, admits, ran, _⟩
    · simp only [acceptedBy, fails]
      trivial
    · simp only [acceptedBy, ran, admits]
      obtain ⟨_, -, simulates⟩ := (verifyFences_reads fences).bind_inv admits
      exact simulateAll_rises mirrors (agrees_new mirrors) (orderly.due mirrors) simulates
  | acquire | renew | expire => exact rising

/-- Views never go back in source order as long as the commands of every script are orderly. -/
theorem views_never_go_back (keys : KeyPrefix) (format : Format)
    (complaint : String → Option String) :
    ∀ world, ViewReached keys format complaint (Orderly keys format complaint) world →
      InOrder world.history := by
  intro world reached
  have risen : Rising world.history world.latest := by
    induction reached with
    | refl => exact ⟨List.Pairwise.nil, nofun⟩
    | tail before step rising =>
      exact rising_step step (mirrors_of_reached (fun _ _ orderly => orderly.storable) before) rising
  exact risen.inOrder

theorem orderly_single (storable : Storable format complaint cmd)
    (versioned : cmd.version.isSome) : Orderly keys format complaint space [cmd] where
  storable _ member := mem_singleton.mp member ▸ storable
  versioned _ _ _ other member := mem_singleton.mp (mem_of_mem_filter member) ▸ versioned
  staysVersioned _ _ := (pairwise_singleton _ _).filter _
  recovers target sourceId first second rest next := by
    have short : (ofSource target sourceId [cmd]).length ≤ 1 := length_filter_le _ _
    rw [next] at short
    simp at short

def updateBook : ViewCommand := ⟨"titles", "book-1", some 10, some ⟨"dune", "worms"⟩⟩

def bookTwice : ViewWorld :=
  runPipeline ventstreamKeys .string (fun _ => none) [] [updateBook] oneBook

theorem views_never_go_back_bookTwice :
    bookTwice.history = [addBook, updateBook] ∧ InOrder bookTwice.history :=
  ⟨by decide +kernel, views_never_go_back ventstreamKeys .string (fun _ => none) bookTwice
    ((Relation.ReflTransGen.single (.pipeline .empty [] [addBook] (orderly_single nofun rfl))).tail
      (.pipeline oneBook [] [updateBook] (orderly_single nofun rfl)))⟩

def removeBook : ViewCommand := ⟨"titles", "book-1", none, none⟩

def staleBook : ViewCommand := ⟨"titles", "book-1", some 3, some ⟨"dune", "dust"⟩⟩

def lateBook : ViewCommand := ⟨"titles", "book-1", some 5, some ⟨"dune", "stone"⟩⟩

def resurrected : ViewWorld :=
  runPipeline ventstreamKeys .string (fun _ => none) [] [lateBook]
    (runPipeline ventstreamKeys .string (fun _ => none) [] [removeBook] oneBook)

def replaced : ViewWorld :=
  runPipeline ventstreamKeys .string (fun _ => none) [] [staleBook, lateBook] oneBook

/-- A removal without a version lets an older version of the book come back, and so does a stale
    command before it in its script. -/
theorem older_versions_come_back :
    (ViewReached ventstreamKeys .string (fun _ => none) (fun _ _ => True) resurrected ∧
      resurrected.history = [addBook, removeBook, lateBook] ∧ ¬ InOrder resurrected.history) ∧
    ViewReached ventstreamKeys .string (fun _ => none) (fun _ _ => True) replaced ∧
      replaced.history = [addBook, lateBook] ∧ ¬ InOrder replaced.history := by
  have first : resurrected.history = [addBook, removeBook, lateBook] := by decide +kernel
  have second : replaced.history = [addBook, lateBook] := by decide +kernel
  refine ⟨⟨?_, first, fun inOrder => ?_⟩, ?_, second, fun inOrder => ?_⟩
  · exact (viewReached_oneBook.tail (.pipeline _ [] [removeBook] trivial)).tail
      (.pipeline _ [] [lateBook] trivial)
  · rw [first] at inOrder
    have back := (pairwise_cons.mp inOrder).1 lateBook (by simp) rfl rfl 7 5 rfl rfl
    exact absurd back (by decide)
  · exact viewReached_oneBook.tail (.pipeline _ [] [staleBook, lateBook] trivial)
  · rw [second] at inOrder
    have back := (pairwise_cons.mp inOrder).1 lateBook (by simp) rfl rfl 7 5 rfl rfl
    exact absurd back (by decide)

end

end Ventstream.Redis
