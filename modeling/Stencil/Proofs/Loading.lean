import Stencil.Extension.Load
import Stencil.Proofs.Priorities
import Stencil.Proofs.Refusal

/-!
# What is loaded

Arguments are gathered first, up to the first list file that cannot be read.  The gathered
extensions are then put through the same checks, one extension after another, and the first
check that is not passed decides what loading fails with.  Where all are passed, what is
loaded is what the registrations of all extensions make, one after another.
-/

namespace Stencil

/-! ## Passes -/

section Passes

variable {ε α β : Type}

theorem Decides.of_error {accepts : Prop} {refuses : ε → Prop} {x : Except ε α}
    (haccepts : accepts ↔ ∀ e, ¬refuses e) (herror : ∀ e, x = .error e ↔ refuses e) :
    Decides accepts refuses x where
  ok := by
    rw [haccepts]
    cases x with
    | ok a => exact iff_of_true ⟨a, rfl⟩ fun e he => nomatch (herror e).mpr he
    | error e => exact iff_of_false nofun fun h => h e ((herror e).mp rfl)
  error := herror

/-- A pass that begins with one check. -/
theorem Screens.cons {p : β → Prop} {refuses : β → ε → Prop} {y : β} {ys : List β}
    {x : Except ε α} (hy : p y ↔ ∀ e, ¬refuses y e) (hpass : p y → Screens p refuses ys x)
    (hfail : ¬p y → ∀ e, x = .error e ↔ refuses y e) : Screens p refuses (y :: ys) x := by
  by_cases hp : p y
  · refine (hpass hp).congr ?_ fun e => ?_
    · rw [List.forall_mem_cons, and_iff_right hp]
    · constructor
      · rintro ⟨z, hz, he⟩
        exact ⟨z, firstFailing_cons.mpr (.inr ⟨hp, hz⟩), he⟩
      · rintro ⟨z, hz, he⟩
        rcases firstFailing_cons.mp hz with ⟨_, hnot⟩ | ⟨_, hz⟩
        · exact absurd hp hnot
        · exact ⟨z, hz, he⟩
  · have hsingle := Screens.single (Decides.of_error hy (hfail hp))
    refine hsingle.congr ?_ fun e => ?_
    · rw [List.forall_mem_cons, List.forall_mem_cons]
      exact iff_of_false (fun h => hp h.1) fun h => hp h.1
    · simp only [firstFailing_cons, hp, false_and, or_false]

end Passes

/-! ## List files -/

/-- The file is there but is no text, or its name is none that a file can have. -/
def ReadFault.NoText (fault : ReadFault) : Prop :=
  ∀ e path, fault ≠ .system e path

theorem Extension.expand_eq_error {fs : FileSystem} {path : String} {g : GatherFault} :
    expand fs path = .error g ↔ ListFile.isListFile path = true ∧
      ∃ fault, fs.readText path = .error fault ∧ GatherFault.ofReadFault path fault = g := by
  rw [expand]
  split
  · rename_i hlist
    rw [ListFile.paths]
    cases hread : fs.readText path with
    | ok text => simp [bind, Except.bind, pure, Except.pure, Except.mapError]
    | error fault => simp [bind, Except.bind, Except.mapError, hlist]
  · rename_i hlist
    simp [hlist]

namespace ListFile

/-- The path names no list file, or the file can be read. -/
def Readable (fs : FileSystem) (path : String) : Prop :=
  isListFile path = true → ∃ text, fs.readText path = .ok text

/-- Only a fault of the system is told as that of a list of extensions. -/
inductive Unread (fs : FileSystem) (path : String) : LoadError → Prop where
  | system (hlist : isListFile path = true) {fault : SystemFault} {name : String}
      (hread : fs.readText path = .error (.system fault name)) :
      Unread fs path (.unreadableList path fault)
  | notText (hlist : isListFile path = true) {fault : ReadFault}
      (hread : fs.readText path = .error fault) (hfault : fault.NoText) :
      Unread fs path (.notText fault)

variable {fs : FileSystem} {path : String}

theorem readable_iff : Readable fs path ↔ ∀ e, ¬Unread fs path e := by
  constructor
  · intro h e he
    cases he with
    | system hlist hread =>
        rcases h hlist with ⟨text, hok⟩
        cases hok.symm.trans hread
    | notText hlist hread _ =>
        rcases h hlist with ⟨text, hok⟩
        cases hok.symm.trans hread
  · intro h hlist
    cases hread : fs.readText path with
    | ok text => exact ⟨text, rfl⟩
    | error fault =>
        cases fault with
        | system fault name => exact absurd (Unread.system hlist hread) (h _)
        | nullInName => exact absurd (Unread.notText hlist hread nofun) (h _)
        | encoding fault => exact absurd (Unread.notText hlist hread nofun) (h _)

theorem unread_iff {e : LoadError} :
    Unread fs path e ↔ ∃ g, Extension.expand fs path = .error g ∧
      LoadError.ofGatherFault g = e := by
  constructor
  · intro h
    cases h with
    | system hlist hread =>
        exact ⟨_, Extension.expand_eq_error.mpr ⟨hlist, _, hread, rfl⟩, rfl⟩
    | @notText hlist fault hread hfault =>
        refine ⟨_, Extension.expand_eq_error.mpr ⟨hlist, _, hread, rfl⟩, ?_⟩
        cases fault with
        | system e name => exact absurd rfl (hfault e name)
        | nullInName => rfl
        | encoding fault => rfl
  · rintro ⟨g, hexpand, rfl⟩
    rcases Extension.expand_eq_error.mp hexpand with ⟨hlist, fault, hread, rfl⟩
    cases fault with
    | system fault name => exact .system hlist hread
    | nullInName => exact .notText hlist hread nofun
    | encoding fault => exact .notText hlist hread nofun

end ListFile

namespace Extension

variable {fs : FileSystem} {extensions : String → Extension} {path : String}
  {paths : List String} {e : LoadError} {s : Services World} {installation : Nat}

theorem decides_expand (path : String) :
    Decides (ListFile.Readable fs path) (ListFile.Unread fs path)
      ((expand fs path).mapError LoadError.ofGatherFault) := by
  refine .of_error ListFile.readable_iff fun e => ?_
  rw [ListFile.unread_iff]
  cases expand fs path with
  | ok part => simp [Except.mapError]
  | error g => simp [Except.mapError]

/-- Arguments are gathered up to the first list file that cannot be read. -/
theorem screens_gather (fs : FileSystem) (paths : List String) :
    Screens (ListFile.Readable fs) (ListFile.Unread fs) paths
      ((gather fs paths).mapError LoadError.ofGatherFault) := by
  induction paths with
  | nil => exact .of_ok rfl
  | cons path paths ih =>
      have hgather : (gather fs (path :: paths)).mapError LoadError.ofGatherFault =
          (expand fs path).mapError LoadError.ofGatherFault >>= fun first =>
            (gather fs paths).mapError LoadError.ofGatherFault >>= fun others =>
              .ok (first ++ others) := by
        rw [gather]
        cases expand fs path with
        | error g => rfl
        | ok first =>
            cases gather fs paths with
            | error g => rfl
            | ok others => rfl
      rw [hgather]
      exact (Screens.single (decides_expand path)).bind fun _ => ih.bind_ok

end Extension

/-! ## Registrations -/

/-- The metadata that a registration adds, if it adds some. -/
def Registration.metadata? {σ : Type} : Registration σ → Option Metadata
  | metadata m => some m
  | _ => none

namespace Services

variable {σ : Type} {s s' : Services σ} {registrations : List (Registration σ)}

/-- The metadata stands in order, and the hooks as their registry has them. -/
structure MadeOf (s : Services σ) (registrations : List (Registration σ)) : Prop where
  metadata : s.metadata = registrations.filterMap Registration.metadata?
  registry : s.registry.Collects registrations

theorem metadata_of_register {registration : Registration σ}
    (h : s.register registration = .ok s') :
    s'.metadata = s.metadata ++ [registration].filterMap Registration.metadata? := by
  cases registration with
  | metadata m =>
      cases h
      rfl
  | listener name hook =>
      rw [register] at h
      split at h
      · cases h
        exact (List.append_nil _).symm
      · cases h
  | stepRule every hook =>
      rw [register] at h
      split at h
      · cases h
      · cases h
        exact (List.append_nil _).symm
  | filter hook =>
      cases h
      exact (List.append_nil _).symm

theorem metadata_of_registerAll (h : s.registerAll registrations = (s', none)) :
    s'.metadata = s.metadata ++ registrations.filterMap Registration.metadata? := by
  induction registrations generalizing s with
  | nil =>
      cases h
      exact (List.append_nil _).symm
  | cons registration registrations ih =>
      rw [registerAll] at h
      cases hregister : s.register registration with
      | error refusal =>
          rw [hregister] at h
          cases h
      | ok between =>
          rw [hregister] at h
          rw [ih h, metadata_of_register hregister, List.append_assoc, ← List.filterMap_append]
          rfl

theorem madeOf_of_registerAll (h : (empty : Services σ).registerAll registrations = (s, none)) :
    s.MadeOf registrations := by
  refine ⟨metadata_of_registerAll h, ?_⟩
  rcases registerAll_eq_attemptAll empty registrations with
    ⟨_, hall⟩ | ⟨before, registration, after, refusal, _, _, _, hrefused⟩
  · rw [← (Prod.mk.inj (hall.symm.trans h)).1]
    exact collects_attemptAll collects_empty registrations
  · cases (Prod.mk.inj (hrefused.symm.trans h)).2

/-- What registrations make, or why one of them was refused. -/
def outcome : Services σ × Option Refusal → Except Refusal (Services σ)
  | (s, none) => .ok s
  | (_, some refusal) => .error refusal

theorem outcome_eq_ok {x : Services σ × Option Refusal} :
    outcome x = .ok s ↔ x = (s, none) := by
  rcases x with ⟨t, _ | refusal⟩
  · simp [outcome]
  · simp [outcome]

theorem outcome_cons (s : Services σ) (registration : Registration σ)
    (registrations : List (Registration σ)) :
    outcome (s.registerAll (registration :: registrations)) =
      s.register registration >>= fun t => outcome (t.registerAll registrations) := by
  rw [registerAll]
  cases s.register registration with
  | ok t => rfl
  | error refusal => rfl

theorem outcome_single (s : Services σ) (registration : Registration σ) :
    outcome (s.registerAll [registration]) = s.register registration := by
  rw [outcome_cons]
  exact bind_pure _

theorem outcome_append (s : Services σ) (first second : List (Registration σ)) :
    outcome (s.registerAll (first ++ second)) =
      outcome (s.registerAll first) >>= fun t => outcome (t.registerAll second) := by
  induction first generalizing s with
  | nil => rfl
  | cons registration first ih =>
      rw [List.cons_append, outcome_cons, outcome_cons, bind_assoc]
      exact congrArg _ (funext ih)

/-- Registrations are made up to the first that is refused. -/
theorem screens_registerAll (s : Services σ) (registrations : List (Registration σ)) :
    Screens (fun r => ∀ refusal, ¬r.Refused refusal) Registration.Refused registrations
      (outcome (s.registerAll registrations)) := by
  induction registrations generalizing s with
  | nil => exact .of_ok rfl
  | cons registration registrations ih =>
      rw [outcome_cons]
      exact (Screens.single (.of_error Iff.rfl fun _ => register_eq_error_iff)).bind ih

end Services

namespace HookDescription

/-- No event has the name, or the period is too small. -/
inductive Refused : HookDescription → Refusal → Prop where
  | unknownEvent {name : String} (hname : ∀ kind : EventKind, kind.name ≠ name)
      (priority : Int) (tag : String) (failure : Option PlannedFailure) :
      Refused (.on name priority tag failure) (.unknownEvent name)
  | badPeriod {n : Int} (hn : n < 1) (tag : String) (failure : Option PlannedFailure) :
      Refused (.every n tag failure) (.badPeriod n)

def Accepted (hook : HookDescription) : Prop :=
  ∀ refusal, ¬hook.Refused refusal

theorem not_refused_of_known {σ : Type} (kind : EventKind) (hook : Hook σ Event Unit)
    (refusal : Refusal) : ¬(Registration.listener kind.name hook).Refused refusal := by
  intro h
  cases h with
  | unknownEvent hname _ => exact hname kind rfl

/-- The statistics ask for nothing that is refused. -/
theorem not_refused_statistics (owner : String) :
    ∀ r ∈ Statistics.registrations owner, ∀ refusal, ¬r.Refused refusal := by
  unfold Statistics.registrations
  simp only [List.forall_mem_cons]
  refine ⟨nofun, not_refused_of_known _ _, not_refused_of_known _ _, not_refused_of_known _ _, ?_,
    nofun, not_refused_of_known _ _, List.forall_mem_nil _⟩
  intro refusal h
  cases h with
  | badPeriod hevery _ => exact absurd hevery (by decide)

variable {s : Services World} {owner : String}

theorem decides_single {hook : HookDescription} {r : Registration World}
    (h : ∀ refusal, r.Refused refusal ↔ hook.Refused refusal) :
    Decides hook.Accepted hook.Refused (Services.outcome (s.registerAll [r])) := by
  refine .of_error Iff.rfl fun refusal => ?_
  rw [Services.outcome_single, Services.register_eq_error_iff, h]

theorem decides_registrations (hook : HookDescription) (id : HookId) (s : Services World) :
    Decides hook.Accepted hook.Refused
      (Services.outcome (s.registerAll (hook.registrations owner id))) := by
  cases hook with
  | metadata m => exact decides_single fun refusal => iff_of_false nofun nofun
  | filter mode priority tag failure =>
      exact decides_single fun refusal => iff_of_false nofun nofun
  | statistics =>
      rcases (Services.screens_registerAll s _).ok.mpr (not_refused_statistics owner) with ⟨t, ht⟩
      refine .of_error Iff.rfl fun refusal => iff_of_false (fun he => ?_) nofun
      cases ht.symm.trans he
  | on name priority tag failure =>
      refine decides_single fun refusal => ?_
      constructor
      · intro h
        cases h with
        | unknownEvent hname _ => exact .unknownEvent hname priority tag failure
      · intro h
        cases h with
        | unknownEvent hname => exact .unknownEvent hname _
  | every n tag failure =>
      refine decides_single fun refusal => ?_
      constructor
      · intro h
        cases h with
        | badPeriod hn _ => exact .badPeriod hn tag failure
      · intro h
        cases h with
        | badPeriod hn => exact .badPeriod hn _

/-- The hooks of an extension are registered up to the first that is refused. -/
theorem screens_allRegistrations (owner : String) (installation : Nat)
    (hooks : List HookDescription) (s : Services World) :
    Screens Accepted Refused hooks
      (Services.outcome (s.registerAll (allRegistrations owner installation hooks))) := by
  rw [allRegistrations]
  generalize 0 = place
  induction hooks generalizing s place with
  | nil => exact .of_ok rfl
  | cons hook hooks ih =>
      rw [List.zipIdx_cons, List.flatMap_cons, Services.outcome_append]
      exact (Screens.single (decides_registrations hook _ s)).bind fun t => ih t (place + 1)

end HookDescription

/-! ## Modules -/

/-- There is something of that name, and it can be read. -/
def FileSystem.Opens (fs : FileSystem) (name : String) : Prop :=
  ∃ bytes, fs.contents name = .ok bytes

theorem FileSystem.not_opens_iff {fs : FileSystem} {name : String} :
    ¬fs.Opens name ↔ ∃ fault, fs.contents name = .error fault := by
  rw [Opens]
  cases fs.contents name with
  | ok bytes => simp
  | error fault => simp

namespace ModuleKind

/-- The name of the file ends as those of the kind do. -/
def Ends (kind : ModuleKind) (path : String) : Prop :=
  kind.suffix <:+ path.toList

variable {path : String} {kind : ModuleKind}

/-- No two kinds have the last character in common. -/
theorem ends_iff (h : kind.Ends path) (other : ModuleKind) : other.Ends path ↔ other = kind := by
  constructor
  · intro h'
    rcases h with ⟨before, hpath⟩
    rcases h' with ⟨before', hpath'⟩
    have hlast := congrArg List.getLast? (hpath'.trans hpath.symm)
    cases other <;> cases kind <;> simp [suffix] at hlast ⊢
  · rintro rfl
    exact h

theorem ends_of_ofPath? (h : ofPath? path = some kind) : kind.Ends path := by
  rw [ofPath?] at h
  have hsuffix := List.find?_some h
  exact List.isSuffixOf_iff_suffix.mp hsuffix

theorem ofPath?_eq_some_iff : ofPath? path = some kind ↔ kind.Ends path := by
  constructor
  · exact ends_of_ofPath?
  · intro h
    cases hfound : ofPath? path with
    | some other => rw [(ends_iff h other).mp (ends_of_ofPath? hfound)]
    | none =>
        have hmem : kind ∈ [native, source, bytecode] := by cases kind <;> simp
        exact absurd (List.isSuffixOf_iff_suffix.mpr h) (List.find?_eq_none.mp hfound kind hmem)

end ModuleKind

namespace Extension

/-- The code of the extension is read from the file.  This is not so if the file is linked, or
if it holds source whose bytecode is kept beside it. -/
def ReadAt (e : Extension) (path : String) : Prop :=
  ModuleKind.source.Ends path ∧ e.compiled = false ∨ ModuleKind.bytecode.Ends path

variable {fs : FileSystem} {path : String} {kind : ModuleKind} {e : Extension}

theorem readsFile_iff (h : kind.Ends path) : e.readsFile kind = true ↔ e.ReadAt path := by
  rw [ReadAt, ModuleKind.ends_iff h, ModuleKind.ends_iff h]
  cases kind <;> simp [readsFile]

theorem creationFault_eq_some_iff (h : kind.Ends path) {raised : Raised} :
    e.creationFault fs path kind = some raised ↔ ModuleKind.native.Ends path ∧
      ((∃ fault, fs.contents path = .error fault ∧
          .ordinary (path ++ ": cannot open shared object file: " ++ fault.reason) = raised) ∨
        fs.Opens path ∧ e.creationError = some raised) := by
  rw [ModuleKind.ends_iff h, FileSystem.Opens]
  cases kind with
  | native =>
      rw [creationFault]
      cases fs.contents path with
      | error fault => simp
      | ok bytes => simp
  | source => simp [creationFault]
  | bytecode => simp [creationFault]

theorem importFault_eq_some_iff (h : kind.Ends path) {reason : String} :
    e.importFault fs path kind = some reason ↔
      (∃ fault, e.ReadAt path ∧ fs.contents path = .error fault ∧
          (ReadFault.system fault path).message = reason) ∨
        (e.ReadAt path → fs.Opens path) ∧ e.importError = some reason := by
  rw [importFault, FileSystem.Opens]
  split
  · rename_i hread
    rw [readsFile_iff h] at hread
    cases fs.contents path with
    | error fault => simp [hread]
    | ok bytes => simp [hread]
  · rename_i hread
    rw [readsFile_iff h] at hread
    simp [hread]

end Extension

/-! ## Checks -/

/-- What is checked of an extension, in this order. -/
inductive Check where
  | found
  | importable
  | created
  | imported
  | version
  | function
  | hooks
  | registered
  deriving DecidableEq

namespace Check

def all : List Check :=
  [found, importable, created, imported, version, function, hooks, registered]

def Passes (fs : FileSystem) (path : String) (e : Extension) : Check → Prop
  | found => fs.isFile path = true
  | importable => ∃ kind : ModuleKind, kind.Ends path
  | created => ModuleKind.native.Ends path → fs.Opens path ∧ e.creationError = none
  | imported => (e.ReadAt path → fs.Opens path) ∧ e.importError = none
  | version => e.apiVersion = .number ApiVersion.provided
  | function => e.registers = true
  | hooks => ∀ hook ∈ e.hooks, hook.Accepted
  | registered => e.registerError = none

/-- What loading fails with where a check is not passed. -/
inductive Fails (fs : FileSystem) (path : String) (e : Extension) :
    Check → LoadError → Prop where
  | found (h : fs.isFile path = false) : Fails fs path e found (.notFound path)
  | importable (h : ∀ kind : ModuleKind, ¬kind.Ends path) :
      Fails fs path e importable (.notImportable path)
  | unlinked {fault : SystemFault} (hnative : ModuleKind.native.Ends path)
      (hread : fs.contents path = .error fault) :
      Fails fs path e created
        (.notCreated (path ++ ": cannot open shared object file: " ++ fault.reason))
  | created {message : String} (hnative : ModuleKind.native.Ends path)
      (hopens : fs.Opens path) (h : e.creationError = some (.ordinary message)) :
      Fails fs path e created (.notCreated message)
  | creationRaised {message : String} (hnative : ModuleKind.native.Ends path)
      (hopens : fs.Opens path) (h : e.creationError = some (.extension message)) :
      Fails fs path e created (.raised message)
  | unread {fault : SystemFault} (hcode : e.ReadAt path)
      (hread : fs.contents path = .error fault) :
      Fails fs path e imported (.importFailed path (ReadFault.system fault path).message)
  | imported {reason : String} (hopens : e.ReadAt path → fs.Opens path)
      (h : e.importError = some reason) : Fails fs path e imported (.importFailed path reason)
  | version (h : e.apiVersion ≠ .number ApiVersion.provided) :
      Fails fs path e version (.wrongVersion path e.apiVersion)
  | function (h : e.registers = false) : Fails fs path e function (.noRegister path)
  | hooks {hook : HookDescription} {refusal : Refusal}
      (hfirst : FirstFailing HookDescription.Accepted e.hooks hook)
      (hrefused : hook.Refused refusal) : Fails fs path e hooks (.refused refusal)
  | registered {reason : String} (h : e.registerError = some (.ordinary reason)) :
      Fails fs path e registered (.registerFailed path reason)
  | registrationRaised {message : String} (h : e.registerError = some (.extension message)) :
      Fails fs path e registered (.raised message)

variable {fs : FileSystem} {path : String} {extension : Extension} {e : LoadError}

theorem fails_hooks_iff (s : Services World) (installation : Nat) :
    Fails fs path extension hooks e ↔ ∃ refusal,
      Services.outcome (s.registerAll (HookDescription.allRegistrations
        (extension.ownerAt path) installation extension.hooks)) = .error refusal ∧
      e = .refused refusal := by
  constructor
  · intro h
    cases h with
    | @hooks hook refusal hfirst hrefused =>
        exact ⟨refusal, ((HookDescription.screens_allRegistrations _ _ _ _).error refusal).mpr
          ⟨hook, hfirst, hrefused⟩, rfl⟩
  · rintro ⟨refusal, houtcome, rfl⟩
    rcases ((HookDescription.screens_allRegistrations _ _ _ _).error refusal).mp houtcome with
      ⟨hook, hfirst, hrefused⟩
    exact .hooks hfirst hrefused

theorem fails_created_iff {kind : ModuleKind} (hkind : kind.Ends path) :
    Fails fs path extension created e ↔ ∃ raised,
      extension.creationFault fs path kind = some raised ∧ e = LoadError.ofCreation raised := by
  constructor
  · intro h
    cases h with
    | unlinked hnative hread =>
        exact ⟨_, (Extension.creationFault_eq_some_iff hkind).mpr
          ⟨hnative, .inl ⟨_, hread, rfl⟩⟩, rfl⟩
    | created hnative hopens h =>
        exact ⟨_, (Extension.creationFault_eq_some_iff hkind).mpr ⟨hnative, .inr ⟨hopens, h⟩⟩, rfl⟩
    | creationRaised hnative hopens h =>
        exact ⟨_, (Extension.creationFault_eq_some_iff hkind).mpr ⟨hnative, .inr ⟨hopens, h⟩⟩, rfl⟩
  · rintro ⟨raised, hraised, rfl⟩
    rcases (Extension.creationFault_eq_some_iff hkind).mp hraised with
      ⟨hnative, ⟨fault, hread, rfl⟩ | ⟨hopens, h⟩⟩
    · exact .unlinked hnative hread
    · cases raised with
      | extension message => exact .creationRaised hnative hopens h
      | ordinary message => exact .created hnative hopens h

theorem fails_imported_iff {kind : ModuleKind} (hkind : kind.Ends path) :
    Fails fs path extension imported e ↔ ∃ reason,
      extension.importFault fs path kind = some reason ∧ e = .importFailed path reason := by
  constructor
  · intro h
    cases h with
    | unread hcode hread =>
        exact ⟨_, (Extension.importFault_eq_some_iff hkind).mpr
          (.inl ⟨_, hcode, hread, rfl⟩), rfl⟩
    | imported hopens h =>
        exact ⟨_, (Extension.importFault_eq_some_iff hkind).mpr (.inr ⟨hopens, h⟩), rfl⟩
  · rintro ⟨reason, hreason, rfl⟩
    rcases (Extension.importFault_eq_some_iff hkind).mp hreason with
      ⟨fault, hcode, hread, rfl⟩ | ⟨hopens, h⟩
    · exact .unread hcode hread
    · exact .imported hopens h

theorem fails_registered_iff :
    Fails fs path extension registered e ↔ ∃ raised,
      extension.registerError = some raised ∧ e = LoadError.ofRegistration path raised := by
  constructor
  · intro h
    cases h with
    | registered h => exact ⟨_, h, rfl⟩
    | registrationRaised h => exact ⟨_, h, rfl⟩
  · rintro ⟨raised, h, rfl⟩
    cases raised with
    | extension message => exact .registrationRaised h
    | ordinary reason => exact .registered h

theorem passes_iff (check : Check) :
    check.Passes fs path extension ↔ ∀ e, ¬check.Fails fs path extension e := by
  constructor
  · intro h e he
    cases he with
    | found hnot => exact absurd (hnot.symm.trans h) Bool.false_ne_true
    | importable hnot =>
        rcases h with ⟨kind, hkind⟩
        exact hnot kind hkind
    | unlinked hnative hread =>
        exact FileSystem.not_opens_iff.mpr ⟨_, hread⟩ (h hnative).1
    | created hnative _ hsome => cases hsome.symm.trans (h hnative).2
    | creationRaised hnative _ hsome => cases hsome.symm.trans (h hnative).2
    | unread hcode hread => exact FileSystem.not_opens_iff.mpr ⟨_, hread⟩ (h.1 hcode)
    | imported _ hsome => cases hsome.symm.trans h.2
    | version hne => exact hne h
    | function hnot => exact absurd (hnot.symm.trans h) Bool.false_ne_true
    | hooks hfirst _ => exact hfirst.not_forall h
    | registered hsome => cases hsome.symm.trans h
    | registrationRaised hsome => cases hsome.symm.trans h
  · intro h
    cases check with
    | found => exact (Bool.not_eq_false _).mp fun hnot => h _ (.found hnot)
    | importable =>
        exact Classical.byContradiction fun hnot => h _ (.importable (not_exists.mp hnot))
    | created =>
        intro hnative
        have hopens : fs.Opens path := by
          by_contra hnot
          rcases FileSystem.not_opens_iff.mp hnot with ⟨fault, hread⟩
          exact h _ (.unlinked hnative hread)
        refine ⟨hopens, Option.eq_none_iff_forall_ne_some.mpr fun raised hsome => ?_⟩
        exact h _ ((fails_created_iff hnative).mpr ⟨raised,
          (Extension.creationFault_eq_some_iff hnative).mpr ⟨hnative, .inr ⟨hopens, hsome⟩⟩, rfl⟩)
    | imported =>
        have hopens : extension.ReadAt path → fs.Opens path := by
          intro hcode
          by_contra hnot
          rcases FileSystem.not_opens_iff.mp hnot with ⟨fault, hread⟩
          exact h _ (.unread hcode hread)
        refine ⟨hopens, Option.eq_none_iff_forall_ne_some.mpr fun reason hsome => ?_⟩
        exact h _ (.imported hopens hsome)
    | version => exact Classical.byContradiction fun hne => h _ (.version hne)
    | function => exact (Bool.not_eq_false _).mp fun hnot => h _ (.function hnot)
    | hooks =>
        refine (HookDescription.screens_allRegistrations (extension.ownerAt path) 0
          extension.hooks Services.empty).ok.mp ?_
        cases houtcome : Services.outcome (Services.empty.registerAll
            (HookDescription.allRegistrations (extension.ownerAt path) 0 extension.hooks)) with
        | ok s => exact ⟨s, rfl⟩
        | error refusal => exact absurd ((fails_hooks_iff _ _).mpr ⟨refusal, houtcome, rfl⟩) (h _)
    | registered =>
        exact Option.eq_none_iff_forall_ne_some.mpr fun raised hsome =>
          h _ (fails_registered_iff.mpr ⟨raised, hsome, rfl⟩)

/-- The reasons for failing at a check that are not the loader's own: those of the system, and
those that the extension gives. -/
inductive Reason (fs : FileSystem) (path : String) (e : Extension) : Check → String → Prop where
  | unread {fault : SystemFault} (hread : fs.contents path = .error fault) :
      Reason fs path e imported (ReadFault.system fault path).message
  | imported {reason : String} (h : e.importError = some reason) :
      Reason fs path e imported reason
  | registered {reason : String} (h : e.registerError = some (.ordinary reason)) :
      Reason fs path e registered reason

/-- A refusal is told in its own words, and so is what an extension raises as an error of
extensions or while its module is made.  Any other fault is told with the path, and after it
the reason. -/
theorem told_of_fails {check : Check} (h : check.Fails fs path extension e) :
    (∃ refusal, e = .refused refusal ∧ e.message = refusal.message) ∨
      (∃ message, (e = .raised message ∨ e = .notCreated message) ∧ e.message = message) ∨
      ∃ before between reason, e.message = before ++ path ++ between ++ reason ∧
        (check = imported ∨ check = registered → check.Reason fs path extension reason) := by
  cases h with
  | hooks _ _ => exact .inl ⟨_, rfl, rfl⟩
  | unlinked _ _ => exact .inr (.inl ⟨_, .inr rfl, rfl⟩)
  | created _ _ _ => exact .inr (.inl ⟨_, .inr rfl, rfl⟩)
  | creationRaised _ _ _ => exact .inr (.inl ⟨_, .inl rfl, rfl⟩)
  | registrationRaised _ => exact .inr (.inl ⟨_, .inl rfl, rfl⟩)
  | found _ =>
      refine .inr (.inr ⟨"Extension not found: ", "", "", ?_, by simp⟩)
      exact (String.append_empty.trans String.append_empty).symm
  | importable _ =>
      refine .inr (.inr ⟨"Cannot import extension ", "", "", ?_, by simp⟩)
      exact (String.append_empty.trans String.append_empty).symm
  | unread _ hread =>
      exact .inr (.inr ⟨"Extension ", " failed to import: ", _, rfl, fun _ => .unread hread⟩)
  | imported _ h =>
      exact .inr (.inr ⟨"Extension ", " failed to import: ", _, rfl, fun _ => .imported h⟩)
  | version _ =>
      refine .inr (.inr ⟨"Extension ", " targets API " ++ extension.apiVersion.text ++
        ", this pipa provides " ++ toString ApiVersion.provided, "", ?_, by simp⟩)
      change "Extension " ++ path ++ " targets API " ++ extension.apiVersion.text ++
        ", this pipa provides " ++ toString ApiVersion.provided = _ ++ ""
      simp only [String.append_assoc, String.append_empty]
  | function _ =>
      refine .inr (.inr ⟨"Extension ", " has no pipa_register(ext) function", "", ?_, by simp⟩)
      exact String.append_empty.symm
  | registered h =>
      exact .inr (.inr ⟨"Extension ", " failed to register: ", _, rfl, fun _ => .registered h⟩)

theorem ne_notText_of_fails {check : Check} (h : check.Fails fs path extension e)
    (fault : ReadFault) : e ≠ .notText fault := by
  cases h <;> simp

section Screening

variable {α : Type} {check : Check} {checks : List Check} {x : Except LoadError α}

/-- A check that can fail in one way only, and the others. -/
theorem screens_guard {c : Prop} [Decidable c] {fault : LoadError}
    (hc : check.Passes fs path extension ↔ ¬c) (hfault : c → check.Fails fs path extension fault)
    (hsole : ∀ e, check.Fails fs path extension e → e = fault)
    (h : Screens (Passes fs path extension) (Fails fs path extension) checks x) :
    Screens (Passes fs path extension) (Fails fs path extension) (check :: checks)
      (if c then .error fault else x) := by
  refine .cons (passes_iff check) (fun hpasses => ?_) fun hnot e => ?_
  · rwa [if_neg (hc.mp hpasses)]
  · have hholds : c := Classical.byContradiction fun hno => hnot (hc.mpr hno)
    rw [if_pos hholds, Except.error.injEq]
    constructor
    · rintro rfl
      exact hfault hholds
    · exact fun he => (hsole e he).symm

/-- A check that fails for a reason that is given, and the others. -/
theorem screens_given {γ : Type} {given : Option γ} {fault : γ → LoadError}
    (hfails : ∀ e, check.Fails fs path extension e ↔
      ∃ reason, given = some reason ∧ e = fault reason)
    (hsome : ∀ reason, given = some reason → x = .error (fault reason))
    (hnone : given = none →
      Screens (Passes fs path extension) (Fails fs path extension) checks x) :
    Screens (Passes fs path extension) (Fails fs path extension) (check :: checks) x := by
  have hpasses : check.Passes fs path extension ↔ given = none := by
    rw [passes_iff, Option.eq_none_iff_forall_ne_some]
    constructor
    · intro h reason hreason
      exact h _ ((hfails _).mpr ⟨reason, hreason, rfl⟩)
    · intro h e he
      rcases (hfails e).mp he with ⟨reason, hreason, _⟩
      exact h reason hreason
  refine .cons (passes_iff check) (fun hpass => hnone (hpasses.mp hpass)) fun hnot e => ?_
  rcases Option.ne_none_iff_exists'.mp (mt hpasses.mpr hnot) with ⟨reason, hreason⟩
  rw [hsome reason hreason, hfails, hreason]
  simp [eq_comm]

end Screening

end Check

namespace Extension

variable {fs : FileSystem} {extensions : String → Extension} {path : String}

theorem eq_of_importAt {extension : Extension}
    (h : importAt fs extensions path = .ok extension) : extension = extensions path := by
  rw [importAt] at h
  split at h
  · cases h
  · split at h
    · cases h
    · dsimp only at h
      split at h
      · cases h
      · split at h
        · cases h
        · cases h
          rfl

/-- Importing is the first four checks. -/
theorem screens_importAt :
    Screens (Check.Passes fs path (extensions path)) (Check.Fails fs path (extensions path))
      [.found, .importable, .created, .imported] (importAt fs extensions path) := by
  refine Check.screens_guard (by simp [Check.Passes]) (fun h => .found (by simpa using h)) ?_ ?_
  · rintro _ ⟨⟩
    rfl
  · refine .cons (Check.passes_iff .importable) (fun himportable => ?_) fun hnot e => ?_
    · rcases himportable with ⟨kind, hkind⟩
      rw [ModuleKind.ofPath?_eq_some_iff.mpr hkind]
      dsimp only
      refine Check.screens_given (fun e => Check.fails_created_iff hkind)
        (fun raised hraised => ?_) fun hcreated => ?_
      · rw [hraised]
      · rw [hcreated]
        refine Check.screens_given (fun e => Check.fails_imported_iff hkind)
          (fun reason hreason => ?_) fun himported => ?_
        · rw [hreason]
        · rw [himported]
          exact .of_ok rfl
    · have hnone : ModuleKind.ofPath? path = none :=
        Option.eq_none_iff_forall_ne_some.mpr fun kind hsome =>
          hnot ⟨kind, ModuleKind.ofPath?_eq_some_iff.mp hsome⟩
      rw [hnone]
      constructor
      · rintro ⟨⟩
        exact .importable (not_exists.mp hnot)
      · rintro ⟨⟩
        rfl

theorem screens_registerAt (path : String) (installation : Nat) (extension : Extension)
    (s : Services World) :
    Screens (Check.Passes fs path extension) (Check.Fails fs path extension)
      [.version, .function, .hooks, .registered]
      (extension.registerAt path installation s) := by
  refine Check.screens_guard (by simp [Check.Passes]) .version ?_
    (Check.screens_guard (by simp [Check.Passes]) (fun h => .function (by simpa using h)) ?_ ?_)
  · rintro _ ⟨⟩
    rfl
  · rintro _ ⟨⟩
    rfl
  · refine .cons (Check.passes_iff .hooks) (fun hhooks => ?_) fun hnot e => ?_
    · rcases (HookDescription.screens_allRegistrations (extension.ownerAt path) installation
        extension.hooks s).ok.mpr hhooks with ⟨t, ht⟩
      rw [Services.outcome_eq_ok.mp ht]
      refine Check.screens_given (fun e => Check.fails_registered_iff)
        (fun raised hraised => ?_) fun hregistered => ?_
      · rw [hraised]
      · rw [hregistered]
        exact .of_ok rfl
    · rw [Check.fails_hooks_iff s installation]
      cases hmade : s.registerAll (HookDescription.allRegistrations (extension.ownerAt path)
          installation extension.hooks) with
      | mk t refused =>
          cases refused with
          | none =>
              have haccepted := (HookDescription.screens_allRegistrations _ installation
                extension.hooks s).ok.mp ⟨t, Services.outcome_eq_ok.mpr hmade⟩
              exact absurd haccepted hnot
          | some refusal => simp [Services.outcome, eq_comm]

/-! ## One extension after another -/

/-- All checks are passed. -/
def Sound (fs : FileSystem) (extensions : String → Extension) (path : String) : Prop :=
  ∀ check ∈ Check.all, check.Passes fs path (extensions path)

/-- It fails at the first check that is not passed. -/
def Faulty (fs : FileSystem) (extensions : String → Extension) (path : String)
    (e : LoadError) : Prop :=
  ∃ check, FirstFailing (Check.Passes fs path (extensions path)) Check.all check ∧
    check.Fails fs path (extensions path) e

theorem decides_install (path : String) (installation : Nat) (s : Services World) :
    Decides (Sound fs extensions path) (Faulty fs extensions path)
      (importAt fs extensions path >>= fun extension =>
        extension.registerAt path installation s) := by
  refine Screens.bind_of_ok screens_importAt fun extension himport => ?_
  rw [eq_of_importAt himport]
  exact screens_registerAt path installation (extensions path) s

theorem loadAll_cons (path : String) (paths : List String) (installation : Nat)
    (s : Services World) :
    loadAll fs extensions installation s (path :: paths) =
      (importAt fs extensions path >>= fun extension =>
        extension.registerAt path installation s) >>= fun t =>
          loadAll fs extensions (installation + 1) t paths := by
  rw [loadAll, bind_assoc]

/-- Extensions are loaded up to the first that is faulty. -/
theorem screens_loadAll (fs : FileSystem) (extensions : String → Extension)
    (paths : List String) (installation : Nat) (s : Services World) :
    Screens (Sound fs extensions) (Faulty fs extensions) paths
      (loadAll fs extensions installation s paths) := by
  induction paths generalizing installation s with
  | nil => exact .of_ok rfl
  | cons path paths ih =>
      rw [loadAll_cons]
      exact (Screens.single (decides_install path installation s)).bind fun t =>
        ih (installation + 1) t

/-- The registrations of all extensions, the first being number `installation`. -/
def registrationsFrom (extensions : String → Extension) (installation : Nat)
    (paths : List String) : List (Registration World) :=
  (paths.zipIdx installation).flatMap fun (path, place) =>
    HookDescription.allRegistrations ((extensions path).ownerAt path) place
      (extensions path).hooks

theorem registerAll_of_registerAt {extension : Extension} {installation : Nat}
    {s s' : Services World} (h : extension.registerAt path installation s = .ok s') :
    s.registerAll (HookDescription.allRegistrations (extension.ownerAt path) installation
      extension.hooks) = (s', none) := by
  rw [registerAt] at h
  split at h
  · cases h
  · split at h
    · cases h
    · split at h
      · cases h
      · rename_i hmade
        split at h
        · cases h
        · cases h
          exact hmade

theorem registerAll_of_loadAll {paths : List String} {installation : Nat}
    {s s' : Services World} (h : loadAll fs extensions installation s paths = .ok s') :
    s.registerAll (registrationsFrom extensions installation paths) = (s', none) := by
  induction paths generalizing installation s with
  | nil =>
      cases h
      rfl
  | cons path paths ih =>
      rw [loadAll] at h
      rcases ok_of_bind h with ⟨extension, himport, hrest⟩
      rcases ok_of_bind hrest with ⟨t, hregister, hload⟩
      rw [eq_of_importAt himport] at hregister
      rw [registrationsFrom, List.zipIdx_cons, List.flatMap_cons, ← Services.outcome_eq_ok,
        Services.outcome_append,
        bind_of_eq_ok (Services.outcome_eq_ok.mpr (registerAll_of_registerAt hregister))]
      exact Services.outcome_eq_ok.mpr (ih hload)

/-- What loading gives: the fault of the first list file that cannot be read, or, of what is
gathered, the fault of the first extension that has one, or what all registrations make. -/
inductive Loads (fs : FileSystem) (extensions : String → Extension) (paths : List String) :
    Except LoadError (Services World) → Prop where
  | unread {path : String} {e : LoadError}
      (hfirst : FirstFailing (ListFile.Readable fs) paths path)
      (he : ListFile.Unread fs path e) : Loads fs extensions paths (.error e)
  | faulty {gathered : List String} {path : String} {e : LoadError}
      (hgather : gather fs paths = .ok gathered)
      (hfirst : FirstFailing (Sound fs extensions) gathered path)
      (he : Faulty fs extensions path e) : Loads fs extensions paths (.error e)
  | loaded {gathered : List String} {s : Services World}
      (hgather : gather fs paths = .ok gathered)
      (hsound : ∀ path ∈ gathered, Sound fs extensions path)
      (hs : Services.empty.registerAll (registrationsFrom extensions 0 gathered) = (s, none)) :
      Loads fs extensions paths (.ok s)

theorem load_of_unread {paths : List String} {e : LoadError}
    (h : (gather fs paths).mapError LoadError.ofGatherFault = .error e)
    (extensions : String → Extension) : load fs extensions paths = .error e :=
  bind_of_eq_error h _

theorem load_of_gathered {paths gathered : List String} (h : gather fs paths = .ok gathered)
    (extensions : String → Extension) :
    load fs extensions paths = loadAll fs extensions 0 Services.empty gathered := by
  rw [load, h]
  rfl

theorem loads_load (fs : FileSystem) (extensions : String → Extension)
    (paths : List String) : Loads fs extensions paths (load fs extensions paths) := by
  have hscreens := screens_gather fs paths
  cases hgather : gather fs paths with
  | error g =>
      rw [hgather] at hscreens
      rcases (hscreens.error (LoadError.ofGatherFault g)).mp rfl with ⟨path, hfirst, he⟩
      rw [load_of_unread (by rw [hgather]; rfl)]
      exact .unread hfirst he
  | ok gathered =>
      rw [load_of_gathered hgather]
      have hloads := screens_loadAll fs extensions gathered 0 Services.empty
      cases hload : loadAll fs extensions 0 Services.empty gathered with
      | error e =>
          rcases (hloads.error e).mp hload with ⟨path, hfirst, he⟩
          exact .faulty hgather hfirst he
      | ok s => exact .loaded hgather (hloads.ok.mp ⟨s, hload⟩) (registerAll_of_loadAll hload)

theorem load_eq_iff {paths : List String} {r : Except LoadError (Services World)} :
    load fs extensions paths = r ↔ Loads fs extensions paths r := by
  constructor
  · rintro rfl
    exact loads_load fs extensions paths
  · intro h
    cases h with
    | unread hfirst he =>
        exact load_of_unread (((screens_gather fs paths).error _).mpr ⟨_, hfirst, he⟩) extensions
    | faulty hgather hfirst he =>
        rw [load_of_gathered hgather]
        exact ((screens_loadAll fs extensions _ 0 Services.empty).error _).mpr ⟨_, hfirst, he⟩
    | loaded hgather hsound hs =>
        rw [load_of_gathered hgather]
        rcases (screens_loadAll fs extensions _ 0 Services.empty).ok.mpr hsound with ⟨t, ht⟩
        have heq := (registerAll_of_loadAll ht).symm.trans hs
        rw [ht, (Prod.mk.inj heq).1]

/-- Arguments are gathered before anything is loaded, and fail for the first list file that
cannot be read, whatever the extensions are.  Then loading fails for the first extension that
does not pass its checks, at the first of them that it does not pass.  If there is none, all
registrations have been made in order.  A list file that is no text and a native module that
is not made, and nothing else, are not told as faults of extensions. -/
theorem loads_in_order (fs : FileSystem) (extensions : String → Extension)
    (paths : List String) :
    (∀ r, load fs extensions paths = r ↔ Loads fs extensions paths r) ∧
    ((∃ gathered, gather fs paths = .ok gathered) ↔
      ∀ path ∈ paths, ListFile.Readable fs path) ∧
    (∀ gathered s, gather fs paths = .ok gathered → load fs extensions paths = .ok s →
      s.MadeOf (registrationsFrom extensions 0 gathered)) ∧
    (∀ path check e, Check.Fails fs path (extensions path) check e →
      (∃ refusal, e = .refused refusal ∧ e.message = refusal.message) ∨
        (∃ message, (e = .raised message ∨ e = .notCreated message) ∧ e.message = message) ∨
        ∃ before between reason, e.message = before ++ path ++ between ++ reason ∧
          (check = .imported ∨ check = .registered →
            check.Reason fs path (extensions path) reason)) ∧
    (∀ fault, load fs extensions paths = .error (.notText fault) ↔
      ∃ path, FirstFailing (ListFile.Readable fs) paths path ∧
        ListFile.Unread fs path (.notText fault)) ∧
    ∀ message, load fs extensions paths = .error (.notCreated message) ↔
      ∃ gathered path, gather fs paths = .ok gathered ∧
        FirstFailing (Sound fs extensions) gathered path ∧
        Faulty fs extensions path (.notCreated message) := by
  refine ⟨fun r => load_eq_iff, ?_, fun gathered s hgather hload => ?_,
    fun path check e => Check.told_of_fails, fun fault => ?_, fun message => ?_⟩
  · rw [← (screens_gather fs paths).ok]
    cases gather fs paths with
    | error g => simp [Except.mapError]
    | ok gathered => simp [Except.mapError]
  · rw [load_of_gathered hgather] at hload
    exact Services.madeOf_of_registerAll (registerAll_of_loadAll hload)
  · rw [load_eq_iff]
    constructor
    · intro h
      cases h with
      | unread hfirst he => exact ⟨_, hfirst, he⟩
      | faulty _ _ he =>
          rcases he with ⟨check, _, hfails⟩
          exact absurd rfl (Check.ne_notText_of_fails hfails fault)
    · rintro ⟨path, hfirst, he⟩
      exact .unread hfirst he
  · rw [load_eq_iff]
    constructor
    · intro h
      cases h with
      | unread _ he => cases he
      | faulty hgather hfirst he => exact ⟨_, _, hgather, hfirst, he⟩
    · rintro ⟨gathered, path, hgather, hfirst, he⟩
      exact .faulty hgather hfirst he

/-- A list file of a single byte that begins no character. -/
def untextualList : FileSystem where
  directory := "/"
  contents := fun name => if name = "l.pipax" then .ok [0xff] else .error .notFound

/-- Its fault is not told as one of a list of extensions. -/
theorem load_untextualList :
    ListFile.isListFile "l.pipax" = true ∧
      load untextualList (fun _ => {}) ["l.pipax"] =
        .error (.notText (.encoding ⟨.invalidStart, 0xff, 0, 0⟩)) := by
  constructor
  · decide
  · exact load_of_unread (by decide +kernel) _

end Extension

end Stencil
