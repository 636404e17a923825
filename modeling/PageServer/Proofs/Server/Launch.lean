import PageServer.CommandLine
import PageServer.Proofs.Net.Address
import PageServer.Proofs.Server.Lifetime

/-!
# From checked settings to a server

The check and the start read the same settings, each on its own. What the check asks of them
is `Settings.Checked`; then the options hold the very port and threads that it read
(`ServerOptions.ofSettings_of_checked`), and pages are made unless the disk refuses their
directory (`Installation.makePages_eq_error_iff`).

The check does not look at the address. So a start ends with a server that serves, or with one
of three refusals (`Installation.launch_eq_error_iff`), two of which are not the disk's: that of
a text that is no address, and that of an address that the machine does not let a server have.
`launch_of_check` puts it together with what the command line says, and `refused_though_checked`
is a case in point.
-/

namespace PageServer

open Act

/-! ### What settings ask for -/

namespace Settings

/-- The port that settings ask for. -/
def portAsked (s : Settings) : Int := (s.int global "listen_port" ({} : ServerOptions).port).value

/-- The threads for connections that settings ask for. -/
def ioThreadsAsked (s : Settings) : Int :=
  (s.int global "io_threads" ({} : ServerOptions).ioThreads).value

/-- The threads for requests that settings ask for. -/
def workerThreadsAsked (s : Settings) : Int :=
  (s.int global "worker_threads" ({} : ServerOptions).workerThreads).value

/-- The text of the address that settings ask for. -/
def ipAsked (s : Settings) : Bytes := s.string global "listen_ip" ({} : ServerOptions).ip

/-- The directory of pages that settings ask for. -/
def pagesRoot (s : Settings) : Bytes :=
  LocalFiles.trimRoot (s.string "page_store" "root" "/tmp/cacheworker/pages")

/-- What the check asks of settings. -/
structure Checked (s : Settings) : Prop where
  port : 0 ≤ s.portAsked ∧ s.portAsked ≤ 65535
  ioThreads : 0 ≤ s.ioThreadsAsked
  workerThreads : 0 ≤ s.workerThreadsAsked
  pageSize : 0 < s.pageSize.value
  keptLoads : 0 < s.keptLoads.value

/-- One question of the check and those that follow it. -/
theorem refuses_eq_none_iff {c : Prop} [Decidable c] {problem : SettingsProblem}
    {rest : Reported (Option SettingsProblem)} :
    (if c then pure (some problem) else rest).value = none ↔ ¬ c ∧ rest.value = none := by
  by_cases h : c
  · rw [if_pos h]
    exact iff_of_false nofun fun hand => hand.1 h
  · rw [if_neg h, and_iff_right h]

theorem check_eq_none_iff {s : Settings} : s.check.value = none ↔ s.Checked := by
  simp only [check, Reported.value_bind, refuses_eq_none_iff, Reported.value_pure, and_true, not_or,
    not_lt, not_le]
  exact ⟨fun ⟨hport, hio, hworkers, hsize, hkept⟩ => ⟨hport, hio, hworkers, hsize, hkept⟩,
    fun ⟨hport, hio, hworkers, hsize, hkept⟩ => ⟨hport, hio, hworkers, hsize, hkept⟩⟩

end Settings

variable {s : Settings}

/-- The options are what was asked for, with nothing put in its place. -/
theorem ServerOptions.ofSettings_of_checked (h : s.Checked) :
    ((ofSettings s).value.ip = s.ipAsked) ∧ ((ofSettings s).value.port : Int) = s.portAsked ∧
      ((ofSettings s).value.ioThreads : Int) = s.ioThreadsAsked ∧
      ((ofSettings s).value.workerThreads : Int) = s.workerThreadsAsked := by
  obtain ⟨hport, hio, hworkers, -, -⟩ := h
  have hportOf : (portOf s.portAsked ({} : ServerOptions).port).value = s.portAsked.toNat := by
    rw [portOf, if_pos hport]
    rfl
  refine ⟨rfl, ?_, Int.toNat_of_nonneg hio, Int.toNat_of_nonneg hworkers⟩
  exact (congrArg Nat.cast hportOf).trans (Int.toNat_of_nonneg hport.1)

/-! ### From options to a server -/

namespace Server

variable {o : ServerOptions} {x : Net.Address}

theorem addressOf_eq_ok_iff :
    addressOf o = .ok x ↔ o.ip.toNul = x.ip ∧ x.port = UInt16.ofNat o.port := by
  rw [← Net.Address.read_eq_some_iff, addressOf]
  split
  · next y hy => rw [hy, Except.ok.injEq, Option.some.injEq]
  · next hnone => simp [hnone]

/-- There is no address for options just if their text is that of none. -/
theorem addressOf_eq_error_iff {e : Failure} :
    addressOf o = .error e ↔
      (∀ x : Net.Address, x.ip ≠ o.ip.toNul) ∧ e = .invalidArgument (Net.Address.refusal o.ip) := by
  constructor
  · intro h
    rw [addressOf] at h
    split at h
    · cases h
    · next hnone =>
      refine ⟨fun x hx => ?_, (Except.error.inj h).symm⟩
      have hread : Net.Address.read o.ip (UInt16.ofNat o.port) =
          some { x with port := UInt16.ofNat o.port } :=
        Net.Address.read_eq_some_iff.2 ⟨hx.symm, rfl⟩
      cases hnone.symm.trans hread
  · rintro ⟨hnone, rfl⟩
    rw [addressOf]
    split
    · next x hx => exact absurd (Net.Address.read_eq_some_iff.1 hx).1.symm (hnone x)
    · rfl

end Server

/-! ### From settings to a server that serves -/

/-- Pages of a size above zero are made unless their directory cannot be. -/
theorem LocalPages.create_ends {root : Bytes} {pageSize : Int} (h : 0 < pageSize) (d : Disk) :
    (create root pageSize).Ends d
      (fun pages _ => (makeRoot d (LocalFiles.trimRoot root)).1 = .ok () ∧
        pages = ⟨LocalFiles.trimRoot root, pageSize⟩)
      fun e _ => ∃ cause, (makeRoot d (LocalFiles.trimRoot root)).1 = .error cause ∧
        e = .pageStore ("cannot create page store root " ++ LocalFiles.trimRoot root ++ ": " ++
          cause.message) := by
  rw [Ends, create, if_neg (not_le.2 h)]
  rcases makeRoot d (LocalFiles.trimRoot root) with ⟨cause | _, d'⟩
  · exact ⟨cause, rfl, rfl⟩
  · exact ⟨rfl, rfl⟩

namespace Installation

variable {machine : Net.Machine} {i : Installation}

/-- Why settings that pass the check are refused all the same: the directory of pages cannot be
    made, the text of the address is that of none, or the machine does not let a server have the
    address. -/
inductive Refusal (machine : Net.Machine) (s : Settings) (d : Disk) : Failure → Prop
  | pages {cause : DiskError} (h : (LocalPages.makeRoot d s.pagesRoot).1 = .error cause) :
    Refusal machine s d
      (.pageStore ("cannot create page store root " ++ s.pagesRoot ++ ": " ++ cause.message))
  | noAddress (made : (LocalPages.makeRoot d s.pagesRoot).1 = .ok ())
    (h : ∀ x : Net.Address, x.ip ≠ s.ipAsked.toNul) :
    Refusal machine s d (.invalidArgument (Net.Address.refusal s.ipAsked))
  | machine {x : Net.Address} {reason : Bytes}
    (made : (LocalPages.makeRoot d s.pagesRoot).1 = .ok ()) (ip : x.ip = s.ipAsked.toNul)
    (port : (x.port.toNat : Int) = s.portAsked) (h : machine.refuses x = some reason) :
    Refusal machine s d (Server.cannotBind x reason)

/-- A server that serves as settings ask for it. -/
structure Serves (machine : Net.Machine) (s : Settings) (d : Disk) (running : Running) :
    Prop where
  made : (LocalPages.makeRoot d s.pagesRoot).1 = .ok ()
  options : running.server.options = (ServerOptions.ofSettings s).value
  ip : running.server.address.ip = s.ipAsked.toNul
  port : (running.server.address.port.toNat : Int) = s.portAsked
  granted : machine.refuses running.server.address = none

theorem makePages_ends (h : 0 < s.pageSize.value) :
    (makePages s).Ends i
      (fun pages _ => (LocalPages.makeRoot i.disk s.pagesRoot).1 = .ok () ∧
        pages = ⟨s.pagesRoot, s.pageSize.value⟩)
      fun e _ => ∃ cause, (LocalPages.makeRoot i.disk s.pagesRoot).1 = .error cause ∧
        e = .pageStore ("cannot create page store root " ++ s.pagesRoot ++ ": " ++ cause.message) :=
  ends_bind (Yields.ends (yields_report (ends_within (LocalPages.create_ends h i.disk))))

theorem makePages_eq_error_iff (h : 0 < s.pageSize.value) {e : Failure} :
    (makePages s i).result = .error e ↔
      ∃ cause, (LocalPages.makeRoot i.disk s.pagesRoot).1 = .error cause ∧
        e = .pageStore
          ("cannot create page store root " ++ s.pagesRoot ++ ": " ++ cause.message) := by
  have hends := makePages_ends h (i := i)
  rw [Ends] at hends
  split at hends
  · next pages hok =>
    rw [hok]
    refine iff_of_false (fun herror => by cases herror) ?_
    rintro ⟨cause, hcause, -⟩
    cases hcause.symm.trans hends.1
  · next e' herror =>
    obtain ⟨cause, hcause, rfl⟩ := hends
    rw [herror, Except.error.injEq]
    constructor
    · rintro rfl
      exact ⟨cause, hcause, rfl⟩
    · rintro ⟨cause', hcause', rfl⟩
      rw [Except.error.inj (hcause.symm.trans hcause')]

/-- The address of checked settings has their text and their port. -/
theorem address_of_checked (h : s.Checked) {x : Net.Address}
    (hx : Server.addressOf (ServerOptions.ofSettings s).value = .ok x) :
    x.ip = s.ipAsked.toNul ∧ (x.port.toNat : Int) = s.portAsked := by
  obtain ⟨hip, hport, -⟩ := ServerOptions.ofSettings_of_checked h
  obtain ⟨hxip, hxport⟩ := Server.addressOf_eq_ok_iff.1 hx
  refine ⟨by rw [← hxip, hip], ?_⟩
  have hlt : (ServerOptions.ofSettings s).value.port < UInt16.size := by
    have := h.port.2
    rw [← hport] at this
    exact Nat.lt_succ_of_le (Int.ofNat_le.1 this)
  rw [hxport, UInt16.toNat_ofNat_of_lt' hlt, hport]

/-- Where there are pages, the address alone decides whether there is a server. -/
theorem build_ends (h : s.Checked) (pages : PageStore Installation) (d : Disk)
    (hmade : (LocalPages.makeRoot d s.pagesRoot).1 = .ok ()) :
    (build machine s pages).Ends i (fun running _ => Serves machine s d running)
      fun e _ => Refusal machine s d e := by
  refine ends_bind (Yields.ends (yields_report ?_))
  refine ends_bind (Yields.ends (yields_within (yields_modify ?_)))
  refine ends_bind (Yields.ends (yields_within (yields_modify ?_)))
  refine ends_bind (Yields.ends (yields_report ?_))
  refine ends_bind ((Server.create_ends _ _ _ _ _).mono ?_ ?_)
  · rintro server i' ⟨hserver, -⟩
    obtain ⟨hip, hport⟩ := address_of_checked h hserver.address
    exact ends_pure ⟨hmade, hserver.options, hip, hport, hserver.granted⟩
  · rintro e i' ⟨hrefused, -⟩
    cases hrefused with
    | address herror =>
      obtain ⟨hnone, rfl⟩ := Server.addressOf_eq_error_iff.1 herror
      exact .noAddress hmade hnone
    | machine hx hreason =>
      obtain ⟨hip, hport⟩ := address_of_checked h hx
      exact .machine hmade hip hport hreason

theorem launch_ends (h : s.Checked) :
    (launch machine s).Ends i (fun running _ => Serves machine s i.disk running)
      fun e _ => Refusal machine s i.disk e := by
  refine ends_bind ((makePages_ends h.pageSize).mono ?_ ?_)
  · rintro pages i' ⟨hmade, rfl⟩
    refine ends_bind ((build_ends h _ i.disk hmade).mono (fun running i'' hserves => ?_)
      fun _ _ => id)
    exact ends_bind (Yields.ends (yields_record (ends_bind (Yields.ends
      (yields_record (ends_pure hserves))))))
  · rintro e i' ⟨cause, hcause, rfl⟩
    exact .pages hcause

/-- A text and a port make one address. -/
theorem eq_of_ip_of_port {x y : Net.Address} {text : Bytes} {n : Int} (hx : x.ip = text.toNul)
    (hxport : (x.port.toNat : Int) = n) (hy : y.ip = text.toNul)
    (hyport : (y.port.toNat : Int) = n) : x = y := by
  have hport : y.port = x.port :=
    UInt16.toNat_inj.1 (Int.ofNat_inj.1 (hyport.trans hxport.symm))
  exact Option.some.inj ((Net.Address.read_eq_some_iff.2 ⟨hx.symm, rfl⟩).symm.trans
    (Net.Address.read_eq_some_iff.2 ⟨hy.symm, hport⟩))

variable {d : Disk} {e e' : Failure}

/-- What serves is not refused. -/
theorem Serves.not_refusal {running : Running} (h : Serves machine s d running) :
    ¬ Refusal machine s d e := by
  intro hrefusal
  cases hrefusal with
  | pages hcause => cases hcause.symm.trans h.made
  | noAddress _ hnone => exact hnone _ h.ip
  | machine _ ip port hreason =>
    obtain rfl := eq_of_ip_of_port ip port h.ip h.port
    cases hreason.symm.trans h.granted

/-- There is at most one reason. -/
theorem Refusal.unique (h : Refusal machine s d e) (h' : Refusal machine s d e') : e = e' := by
  cases h with
  | pages hcause =>
    cases h' with
    | pages hcause' => rw [Except.error.inj (hcause.symm.trans hcause')]
    | noAddress made | machine made => cases hcause.symm.trans made
  | noAddress made hnone =>
    cases h' with
    | pages hcause => cases hcause.symm.trans made
    | noAddress => rfl
    | machine _ ip => exact absurd ip (hnone _)
  | machine made ip port hreason =>
    cases h' with
    | pages hcause => cases hcause.symm.trans made
    | noAddress _ hnone => exact absurd ip (hnone _)
    | machine _ ip' port' hreason' =>
      obtain rfl := eq_of_ip_of_port ip port ip' port'
      rw [Option.some.inj (hreason.symm.trans hreason')]

theorem launch_eq_error_iff (h : s.Checked) :
    (launch machine s i).result = .error e ↔ Refusal machine s i.disk e := by
  have hends : (launch machine s).Ends i (fun running _ => Serves machine s i.disk running)
      fun e _ => Refusal machine s i.disk e := launch_ends h
  rw [Ends] at hends
  split at hends
  · next running hok =>
    rw [hok]
    exact iff_of_false (fun herror => by cases herror) hends.not_refusal
  · next e' herror =>
    rw [herror, Except.error.injEq]
    exact ⟨fun heq => heq ▸ hends, hends.unique⟩

end Installation

/-! ### The command line -/

namespace CommandLine

variable {machine : Net.Machine} {i : Installation}

/-- The settings that a file on the disk holds, and the defaults if there is none. -/
def settingsIn (d : Disk) (file : Bytes) : Settings :=
  (Settings.load {} file (textOf d file)).value.2

theorem loadSettings_yields (file : Bytes) :
    (loadSettings file).Yields i fun s i' => s = settingsIn i.disk file ∧ i' = i := by
  refine yields_bind (yields_get (yields_bind (yields_report ?_)))
  rcases hload : (Settings.load {} file (textOf i.disk file)).value with ⟨loaded, settings⟩
  have hsettings : settings = settingsIn i.disk file := by rw [settingsIn, hload]
  cases loaded
  · exact yields_bind (yields_record (yields_pure ⟨hsettings, rfl⟩))
  · exact yields_pure ⟨hsettings, rfl⟩

theorem prepare_yields {file : Bytes} (h : (settingsIn i.disk file).check.value = none)
    (checkOnly : Bool) :
    (prepare file checkOnly).Yields i fun next i' => i' = i ∧
      next = if checkOnly then .inl (.exit 0 "OK\n") else .inr (settingsIn i.disk file) := by
  refine yields_bind ((loadSettings_yields file).mono ?_)
  rintro s i' ⟨rfl, rfl⟩
  refine yields_bind (yields_report ?_)
  rw [h]
  cases checkOnly <;> exact yields_pure ⟨rfl, rfl⟩

theorem yields_keeping {α : Type} {a : Act Installation α} {Q : α → Installation → Prop}
    (level : Log.Level) (h : a.Yields i Q) : (keeping level a).Yields i Q := h

/-- A run either serves or ends with the code one. -/
theorem start_yields (h : s.Checked) :
    (start machine s).Yields i fun ending _ =>
      (∃ running, ending = .serving running ∧ Installation.Serves machine s i.disk running) ∨
        ending = .exit 1 [] ∧ ∃ e, Installation.Refusal machine s i.disk e := by
  refine yields_recover (ends_bind ((Installation.launch_ends h).mono ?_ ?_))
  · exact fun running i' hserves => ends_pure (.inl ⟨running, rfl, hserves⟩)
  · exact fun e i' hrefusal => yields_bind (yields_record (yields_pure (.inr ⟨rfl, e, hrefusal⟩)))

theorem run_yields {arguments : List Bytes} {file : Bytes} {checkOnly : Bool} (program : Bytes)
    (hread : read arguments = .run file checkOnly)
    (h : (settingsIn i.disk file).check.value = none) :
    (run machine program arguments).Yields i fun ending _ =>
      if checkOnly then ending = .exit 0 "OK\n"
      else (∃ running, ending = .serving running ∧
          Installation.Serves machine (settingsIn i.disk file) i.disk running) ∨
        ending = .exit 1 [] ∧
          ∃ e, Installation.Refusal machine (settingsIn i.disk file) i.disk e := by
  rw [run, hread]
  refine yields_bind (yields_keeping _ ((prepare_yields h checkOnly).mono ?_))
  rintro next i' ⟨rfl, rfl⟩
  cases checkOnly
  · exact yields_keeping _ (start_yields (Settings.check_eq_none_iff.1 h))
  · exact yields_pure rfl

end CommandLine

/-! ### What the check promises -/

/-- Settings that pass the check ask for a port and for threads that the server gets, and for
    pages that there are unless their directory cannot be made. Nothing is asked of the address,
    though: it fails if its text is that of none, and so does listening at one that the machine
    refuses. There is no other reason for a run to end with the code one, and `-C` says that all
    is well with each. -/
theorem launch_of_check (h : s.check.value = none) :
    ((ServerOptions.ofSettings s).value.port = s.portAsked ∧
      (ServerOptions.ofSettings s).value.ioThreads = s.ioThreadsAsked ∧
      (ServerOptions.ofSettings s).value.workerThreads = s.workerThreadsAsked) ∧
    (∀ e, Server.addressOf (ServerOptions.ofSettings s).value = .error e ↔
      (∀ x : Net.Address, x.ip ≠ s.ipAsked.toNul) ∧
        e = .invalidArgument (Net.Address.refusal s.ipAsked)) ∧
    ∀ (machine : Net.Machine) (i : Installation),
      (∀ e, (Installation.makePages s i).result = .error e ↔
        ∃ cause, (LocalPages.makeRoot i.disk s.pagesRoot).1 = .error cause ∧
          e = .pageStore
            ("cannot create page store root " ++ s.pagesRoot ++ ": " ++ cause.message)) ∧
      (∀ running, (Installation.launch machine s i).result = .ok running →
        Installation.Serves machine s i.disk running) ∧
      (∀ e, (Installation.launch machine s i).result = .error e ↔
        Installation.Refusal machine s i.disk e) ∧
      ∀ (program : Bytes) (arguments : List Bytes) (file : Bytes) (checkOnly : Bool),
        CommandLine.read arguments = .run file checkOnly →
        CommandLine.settingsIn i.disk file = s →
        (CommandLine.run machine program arguments).Yields i fun ending _ =>
          if checkOnly then ending = .exit 0 "OK\n"
          else (∃ running, ending = .serving running ∧
              Installation.Serves machine s i.disk running) ∨
            ending = .exit 1 [] ∧ ∃ e, Installation.Refusal machine s i.disk e := by
  have hchecked := Settings.check_eq_none_iff.1 h
  obtain ⟨hip, hoptions⟩ := ServerOptions.ofSettings_of_checked hchecked
  refine ⟨hoptions, fun e => hip ▸ Server.addressOf_eq_error_iff, fun machine i =>
    ⟨fun e => Installation.makePages_eq_error_iff hchecked.pageSize, fun running hok => ?_,
      fun e => Installation.launch_eq_error_iff hchecked, ?_⟩⟩
  · have hends : (Installation.launch machine s).Ends i
        (fun running _ => Installation.Serves machine s i.disk running)
        fun e _ => Installation.Refusal machine s i.disk e := Installation.launch_ends hchecked
    rw [Ends, hok] at hends
    exact hends
  · rintro program arguments file checkOnly hread rfl
    exact CommandLine.run_yields program hread h

/-- Settings that tell the address, the port and the page size, and threads that are no number. -/
def toldSettings : Settings :=
  (Settings.loadText {} ("listen_ip = 127.0.0.1\nlisten_port = 8080\nio_threads = 3\n" ++
    "worker_threads = many\n[page_store]\nroot = /pages/\npage_size = 4096\n")).value

/-- The server gets what is told, and for what is no number what is usual. -/
theorem launch_of_check_told :
    toldSettings.check.value = none ∧
      ((ServerOptions.ofSettings toldSettings).value.port = 8080 ∧
        (ServerOptions.ofSettings toldSettings).value.ioThreads = 3 ∧
        (ServerOptions.ofSettings toldSettings).value.workerThreads = 4) ∧
      ∃ running, (Installation.launch .alone toldSettings {}).result = .ok running ∧
        Installation.Serves .alone toldSettings {} running := by
  have hcheck : toldSettings.check.value = none := by decide +kernel
  obtain ⟨⟨hport, hio, hworkers⟩, -, hlaunch⟩ := launch_of_check hcheck
  have hasked : toldSettings.portAsked = 8080 ∧ toldSettings.ioThreadsAsked = 3 ∧
      toldSettings.workerThreadsAsked = 4 := by decide +kernel
  refine ⟨hcheck, ⟨by omega, by omega, by omega⟩, ?_⟩
  obtain ⟨-, hserves, hrefused, -⟩ := hlaunch .alone {}
  have hmade : (LocalPages.makeRoot {} toldSettings.pagesRoot).1 = .ok () := by decide +kernel
  have hip : Net.Address.ip ⟨127, 0, 0, 1, 8080⟩ = toldSettings.ipAsked.toNul := by decide +kernel
  rcases hresult : (Installation.launch .alone toldSettings {}).result with e | running
  · cases (hrefused e).1 hresult with
    | pages hcause => cases hcause.symm.trans hmade
    | noAddress _ hnone => exact absurd hip (hnone _)
    | machine _ ip port hreason =>
      obtain rfl := Installation.eq_of_ip_of_port ip port hip hasked.1.symm
      cases hreason
  · exact ⟨running, rfl, hserves running hresult⟩

/-- Not only the disk makes a server fail whose settings pass the check: the address does so too,
    as in `listen_ip = localhost`. -/
theorem refused_though_checked :
    ¬ ∀ (s : Settings) (i : Installation), s.check.value = none →
      ∀ e, (Installation.launch .alone s i).result = .error e →
        ∃ cause, (LocalPages.makeRoot i.disk s.pagesRoot).1 = .error cause := by
  intro hall
  have hcheck : (Settings.set {} Settings.global "listen_ip" "localhost").check.value = none := by
    decide
  have hmade : (LocalPages.makeRoot {}
      (Settings.set {} Settings.global "listen_ip" "localhost").pagesRoot).1 = .ok () := by
    decide +kernel
  have hnone := (Server.addressOf_eq_error_iff (o := { ip := "localhost" })).1 rfl
  obtain ⟨cause, hcause⟩ := hall _ {} hcheck _
    ((Installation.launch_eq_error_iff (Settings.check_eq_none_iff.1 hcheck)).2
      (.noAddress hmade hnone.1))
  cases hcause.symm.trans hmade

end PageServer
