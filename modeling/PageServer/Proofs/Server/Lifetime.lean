import PageServer.Proofs.Metrics
import PageServer.Proofs.Worker.Answers
import PageServer.Server.Exchange

/-!
# The gauge of connections and its servers

Servers come and go around one registry of metrics (`Registry.Deed`). Whether a server is
made depends on its address and on what the machine says to it, and a server that is made
registers the gauge of connections just if there is none (`Server.create_ends`). What becomes
of the gauge and of the servers in one deed is a `Registry.Change`.

So the gauge, if it is registered, reads a server that was not closed, and it reads a server
for as long as no server at all is closed (`Registry.gauge_follows`). That is not for as long
as the server itself lives: another one that is closed takes the gauge along
(`Registry.gauge_not_kept`).
-/

namespace PageServer

open Act

namespace Worker.Desk

variable {σ τ ρ : Type} {view : τ → ρ}

theorem leaves_add (router : Http.Router σ) (method : Http.Method) (path : Bytes)
    (handler : Http.Handler σ) : Leaves view (router.add method path handler) := by
  rw [Http.Router.add]
  split
  · exact leaves_throw _
  · exact leaves_bind (leaves_record _ _) fun _ => leaves_pure _

theorem leaves_addAll (routes : List (Http.Method × Bytes × Http.Handler σ))
    (router : Http.Router σ) : Leaves view (addAll routes router) := by
  induction routes generalizing router with
  | nil => exact leaves_pure _
  | cons route routes ih => exact leaves_bind (leaves_add _ _ _ _) fun _ => ih _

/-- Routes are installed without a change to the state. -/
theorem leaves_install (desk : Desk σ) (router : Http.Router σ) :
    Leaves view (desk.install router) :=
  leaves_bind (leaves_addAll _ _) fun _ => leaves_bind (leaves_record _ _) fun _ => leaves_pure _

end Worker.Desk

namespace Server

variable {σ : Type} {machine : Net.Machine} {id : Nat} {o : ServerOptions} {desk : Worker.Desk σ}

/-- What a server that was made is like. -/
structure Made (machine : Net.Machine) (id : Nat) (o : ServerOptions) (desk : Worker.Desk σ)
    (server : Server σ) : Prop where
  id : server.id = id
  options : server.options = o
  metrics : server.metrics = desk.metrics
  address : addressOf o = .ok server.address
  granted : machine.refuses server.address = none

/-- Why there is no server with the options. -/
inductive Refused (machine : Net.Machine) (o : ServerOptions) : Failure → Prop
  | address {e : Failure} (h : addressOf o = .error e) : Refused machine o e
  | machine {x : Net.Address} {reason : Bytes} (h : addressOf o = .ok x)
    (hreason : machine.refuses x = some reason) : Refused machine o (cannotBind x reason)

/-- A server is made or refused, and only one that is made changes anything: it registers its
    gauge. -/
theorem create_ends (machine : Net.Machine) (id : Nat) (o : ServerOptions) (desk : Worker.Desk σ)
    (s : σ) :
    (create machine id o desk).Ends s
      (fun server s' => Made machine id o desk server ∧ s' = desk.metrics.set
        ((desk.metrics.get s).showConnections id).2 (desk.metrics.set (desk.metrics.get s) s))
      (fun e s' => Refused machine o e ∧ s' = s) := by
  rw [create]
  refine ends_bind (ends_ofExcept (fun x hx => ?_) fun e he => ⟨.address he, rfl⟩)
  cases hgranted : machine.refuses x with
  | some reason => exact ends_bind (ends_throw ⟨.machine hx hgranted, rfl⟩)
  | none =>
    have hleaves : Leaves (fun s : σ => s) (desk.install {}) := desk.leaves_install {}
    have hinstall : (desk.install {}).Ends s (fun _ s' => s' = s) fun _ _ => False :=
      ((Worker.install_yields desk s).ends.leaves hleaves).mono (fun _ _ h => h.2) fun _ _ h => h.1
    refine ends_bind (hinstall.mono ?_ fun _ _ h => h.elim)
    rintro router _ rfl
    refine ends_bind (ends_within (Yields.ends (yields_get ?_)))
    have hmade : ∀ router, Made machine id o desk ⟨id, o, x, router, desk.metrics, 0⟩ := fun _ =>
      ⟨rfl, rfl, rfl, hx, hgranted⟩
    rcases Metrics.showConnections _ id with ⟨shown, m⟩
    refine ends_bind (ends_within (Yields.ends (yields_modify ?_)))
    cases shown
    · exact ends_bind (Yields.ends (yields_record (ends_pure ⟨hmade _, rfl⟩)))
    · exact ends_pure ⟨hmade _, rfl⟩

end Server

/-! ### Servers around a registry -/

/-- A registry of metrics that servers share: it holds what is put into it. -/
structure Registry (σ : Type) extends Part σ Metrics where
  get_set : ∀ m s, get (set m s) = m

/-- The servers around a registry. -/
structure Neighbours (σ : Type) where
  state : σ
  /-- Those that were made and not closed. -/
  living : List (Server σ) := []
  closed : List (Server σ) := []
  /-- How many were asked for. The next one has this number. -/
  count : Nat := 0

namespace Registry

variable {σ : Type} {r : Registry σ} {s s' : σ}

/-- The gauge of connections, if it is registered. -/
def shown (r : Registry σ) (s : σ) : Option Gauge :=
  (r.get s).gauges.get? Worker.activeConnections

/-- The gauge of connections reads how many connections a server has open. -/
def Reads (r : Registry σ) (s : σ) (server : Server σ) : Prop := ∀ count : Nat,
  (r.get (server.setOpen count s).state).gaugeValue Worker.activeConnections = some (.ofInt count)

theorem gaugeValue_setOpen {server : Server σ} (h : server.metrics = r.toPart) (count : Nat) :
    (r.get (server.setOpen count s).state).gaugeValue Worker.activeConnections =
      (r.shown s).map ((r.get s).setConnections server.id count).read := by
  have hstate : (server.setOpen count s).state =
      r.set ((r.get s).setConnections server.id count) s := by
    rw [Server.setOpen, h]
    rfl
  rw [hstate, r.get_set]
  rfl

/-- The gauge that reads a server is the one that the server registered. -/
theorem reads_iff {server : Server σ} (h : server.metrics = r.toPart) :
    r.Reads s server ↔ r.shown s = some (.connections server.id) := by
  simp only [Reads, gaugeValue_setOpen h, Option.map_eq_some_iff]
  constructor
  · intro hreads
    obtain ⟨g, hg, hzero⟩ := hreads 0
    obtain ⟨g', hg', hone⟩ := hreads 1
    obtain rfl := Option.some.inj (hg'.symm.trans hg)
    -- No other gauge tells one open connection from none.
    have hdiffer : Binary64.ofInt (0 : Nat) ≠ .ofInt (1 : Nat) := by decide
    cases g' with
    | connections id =>
      by_cases hid : id = server.id
      · rw [hg, hid]
      · simp only [Metrics.read, Metrics.openConnections, Metrics.setConnections,
          Table.get?_insert, Std.LawfulEqCmp.compare_eq_iff_eq, if_neg hid] at hzero hone
        exact absurd (hzero.symm.trans hone) hdiffer
    | _ => exact absurd (hzero.symm.trans hone) hdiffer
  · intro hshown count
    refine ⟨_, hshown, ?_⟩
    simp only [Metrics.read, Metrics.openConnections, Metrics.setConnections, Table.get?_insert,
      Std.LawfulEqCmp.compare_eq_iff_eq, if_true, Option.getD_some]

/-- What is done around a registry. -/
inductive Deed (r : Registry σ)
  /-- A server is asked for that is to use the registry. -/
  | make (machine : Net.Machine) (o : ServerOptions) (desk : Worker.Desk σ)
    (shares : desk.metrics = r.toPart)
  /-- The server with a number is closed, if it lives. -/
  | close (id : Nat)
  /-- Anything that the gauge of connections is left alone by. -/
  | work (a : Act σ Unit) (leaves : a.Leaves r.shown)

/-- No server was asked for yet. -/
def start (s : σ) : Neighbours σ := { state := s }

/-- The servers after a deed. -/
def after (n : Neighbours σ) : Deed r → Neighbours σ
  | .make machine o desk _ =>
    match Server.create machine n.count o desk n.state with
    | ⟨.ok server, state, _⟩ =>
      { n with state, living := n.living ++ [server], count := n.count + 1 }
    | ⟨.error _, state, _⟩ => { n with state, count := n.count + 1 }
  | .close id =>
    match n.living.find? (·.id = id) with
    | some server =>
      { n with
        state := (server.close n.state).state
        living := n.living.filter (·.id ≠ id)
        closed := n.closed ++ [server] }
    | none => n
  | .work a _ => { n with state := (a n.state).state }

/-- The servers after deeds. -/
def run (n : Neighbours σ) (deeds : List (Deed r)) : Neighbours σ := deeds.foldl after n

/-- Servers around a registry have numbers that were given to no other one, and the gauge of
    connections is that of one that lives. -/
structure Sound (r : Registry σ) (n : Neighbours σ) : Prop where
  shares : ∀ server ∈ n.living ++ n.closed, server.metrics = r.toPart
  fresh : ∀ server ∈ n.living ++ n.closed, server.id < n.count
  apart : ∀ server ∈ n.living, ∀ other ∈ n.closed, server.id ≠ other.id
  shown : ∀ g, r.shown n.state = some g → ∃ server ∈ n.living, g = .connections server.id

/-- What a deed may come to. -/
inductive Change (r : Registry σ) (n n' : Neighbours σ) : Prop
  | made (server : Server σ) (id : server.id = n.count) (shares : server.metrics = r.toPart)
    (living : n'.living = n.living ++ [server]) (closed : n'.closed = n.closed)
    (count : n'.count = n.count + 1)
    (shown : r.shown n'.state = (r.shown n.state).or (some (.connections n.count)))
  | closed (server : Server σ) (mem : server ∈ n.living)
    (living : n'.living = n.living.filter (·.id ≠ server.id))
    (closed : n'.closed = n.closed ++ [server]) (count : n'.count = n.count)
    (shown : r.shown n'.state = none)
  | same (living : n'.living = n.living) (closed : n'.closed = n.closed)
    (count : n.count ≤ n'.count) (shown : r.shown n'.state = r.shown n.state)

theorem shown_showConnections (id : Nat) :
    r.shown (r.set ((r.get s).showConnections id).2 s') =
      (r.shown s).or (some (.connections id)) := by
  rw [shown, r.get_set]
  refine (Metrics.get?_gauges_after (r.get s)
    (.register Worker.activeConnections (.connections id)) rfl).trans ?_
  rw [Metrics.gaugeAfter, if_pos rfl]
  rfl

theorem shown_close {server : Server σ} (h : server.metrics = r.toPart) :
    r.shown (server.close s).state = none := by
  have hstate : (server.close s).state = r.set (r.get s).hideConnections s := by
    rw [Server.close, h]
    rfl
  rw [hstate, shown, r.get_set]
  refine (Metrics.get?_gauges_after (r.get s) (.remove Worker.activeConnections) rfl).trans ?_
  rw [Metrics.gaugeAfter, if_pos rfl]

variable {n n' : Neighbours σ} {server : Server σ} {machine : Net.Machine}

/-- A server that is made registers its gauge if there is none. -/
theorem after_make_of_ok {o : ServerOptions} {desk : Worker.Desk σ}
    (shares : desk.metrics = r.toPart)
    (h : (Server.create machine n.count o desk n.state).result = .ok server) :
    server.id = n.count ∧ server.metrics = r.toPart ∧ ∃ state,
      after n (.make machine o desk shares) = ⟨state, n.living ++ [server], n.closed, n.count + 1⟩ ∧
        r.shown state = (r.shown n.state).or (some (.connections n.count)) := by
  have hends := Server.create_ends machine n.count o desk n.state
  rw [Ends, h] at hends
  obtain ⟨hmade, hstate⟩ := hends
  refine ⟨hmade.id, hmade.metrics.trans shares, _, ?_, hstate ▸ shares ▸ shown_showConnections _⟩
  rcases hcreate : Server.create machine n.count o desk n.state with ⟨result, state, log⟩
  rw [hcreate] at h
  obtain rfl : result = .ok server := h
  simp only [after, hcreate]

/-- A server that is refused changes nothing. -/
theorem after_make_of_error {o : ServerOptions} {desk : Worker.Desk σ} {e : Failure}
    (shares : desk.metrics = r.toPart)
    (h : (Server.create machine n.count o desk n.state).result = .error e) :
    after n (.make machine o desk shares) = { n with count := n.count + 1 } := by
  have hends := Server.create_ends machine n.count o desk n.state
  rw [Ends, h] at hends
  rcases hcreate : Server.create machine n.count o desk n.state with ⟨result, state, log⟩
  rw [hcreate] at h hends
  obtain rfl : result = .error e := h
  obtain rfl : state = n.state := hends.2
  simp only [after, hcreate]

theorem Sound.change_after (h : Sound r n) (d : Deed r) : Change r n (after n d) := by
  cases d with
  | make machine o desk shares =>
    rcases hresult : (Server.create machine n.count o desk n.state).result with e | server
    · rw [after_make_of_error shares hresult]
      exact .same rfl rfl (Nat.le_succ _) rfl
    · obtain ⟨hid, hmetrics, state, hafter, hshown⟩ := after_make_of_ok shares hresult
      rw [hafter]
      exact .made server hid hmetrics rfl rfl rfl hshown
  | close id =>
    rw [after]
    split
    · next server hfind =>
      have hid : server.id = id := by simpa using List.find?_some hfind
      have hmem := List.mem_of_find?_eq_some hfind
      exact .closed server hmem (by rw [hid]) rfl rfl
        (shown_close (h.shares _ (List.mem_append_left _ hmem)))
    · exact .same rfl rfl (Nat.le_refl _) rfl
  | work a leaves => exact .same rfl rfl (Nat.le_refl _) (leaves _)

theorem Change.count_le (h : Change r n n') : n.count ≤ n'.count := by
  cases h with
  | made _ _ _ _ _ count => omega
  | closed _ _ _ _ count => omega
  | same _ _ count => exact count

/-- A server was there before, or it has a number that was not given before. -/
theorem Change.mem_cases (h : Change r n n') (hserver : server ∈ n'.living ++ n'.closed) :
    server ∈ n.living ++ n.closed ∨ server.metrics = r.toPart ∧ server.id < n'.count := by
  cases h with
  | made new id shares living closed count =>
    simp only [living, closed, List.mem_append, List.mem_singleton] at hserver ⊢
    rcases hserver with (hserver | rfl) | hserver
    · exact .inl (.inl hserver)
    · exact .inr ⟨shares, by omega⟩
    · exact .inl (.inr hserver)
  | closed old mem living closed =>
    simp only [living, closed, List.mem_append, List.mem_filter, List.mem_singleton] at hserver ⊢
    rcases hserver with ⟨hserver, -⟩ | hserver | rfl
    · exact .inl (.inl hserver)
    · exact .inl (.inr hserver)
    · exact .inl (.inl mem)
  | same living closed => exact .inl (living ▸ closed ▸ hserver)

/-- A server is never closed and alive. -/
theorem Sound.apart_change (h : Sound r n) (hchange : Change r n n') (hserver : server ∈ n'.living)
    {other : Server σ} (hother : other ∈ n'.closed) : server.id ≠ other.id := by
  cases hchange with
  | made new id _ living closed =>
    rw [closed] at hother
    rw [living, List.mem_append, List.mem_singleton] at hserver
    obtain hserver | rfl := hserver
    · exact h.apart server hserver other hother
    · have := h.fresh other (List.mem_append_right _ hother)
      omega
  | closed old _ living closed =>
    rw [living, List.mem_filter, decide_eq_true_iff] at hserver
    rw [closed, List.mem_append, List.mem_singleton] at hother
    obtain hother | rfl := hother
    · exact h.apart server hserver.1 other hother
    · exact hserver.2
  | same living closed => exact h.apart server (living ▸ hserver) other (closed ▸ hother)

/-- What the gauge of connections is after a change, it is of a server that lives. -/
theorem Sound.shown_change (h : Sound r n) (hchange : Change r n n') {g : Gauge}
    (hg : r.shown n'.state = some g) : ∃ server ∈ n'.living, g = .connections server.id := by
  cases hchange with
  | made new id _ living _ _ shown =>
    rw [shown, Option.or_eq_some_iff] at hg
    rw [living]
    obtain hg | ⟨-, hg⟩ := hg
    · obtain ⟨server, hserver, rfl⟩ := h.shown g hg
      exact ⟨server, List.mem_append_left _ hserver, rfl⟩
    · refine ⟨new, List.mem_append_right _ (List.mem_singleton_self _), ?_⟩
      rw [id, Option.some.inj hg]
  | closed _ _ _ _ _ shown => cases shown.symm.trans hg
  | same living _ _ shown => exact living ▸ h.shown g (shown ▸ hg)

theorem Sound.change (h : Sound r n) (hchange : Change r n n') : Sound r n' where
  shares server hserver := (hchange.mem_cases hserver).elim (h.shares server) And.left
  fresh server hserver := (hchange.mem_cases hserver).elim
    (fun hold => (h.fresh server hold).trans_le hchange.count_le) And.right
  apart _ hserver _ hother := h.apart_change hchange hserver hother
  shown _ hg := h.shown_change hchange hg

theorem Sound.run (h : Sound r n) (deeds : List (Deed r)) : Sound r (run n deeds) := by
  induction deeds generalizing n with
  | nil => exact h
  | cons d deeds ih => exact ih (h.change (h.change_after d))

/-- The gauge of one server stays as long as none is closed. -/
theorem Change.shown_iff (h : Change r n n') {id : Nat} (hid : id < n.count) :
    r.shown n'.state = some (.connections id) ↔
      r.shown n.state = some (.connections id) ∧ n'.closed = n.closed := by
  cases h with
  | made server _ _ _ closed _ shown =>
    rw [shown, and_iff_left closed, Option.or_eq_some_iff, or_iff_left]
    rintro ⟨-, hself⟩
    cases hself
    exact Nat.lt_irrefl _ hid
  | closed server _ _ closed _ shown =>
    rw [shown, closed]
    simp
  | same _ closed _ shown => rw [shown, and_iff_left closed]

theorem Change.closed_extends (h : Change r n n') : n.closed <+: n'.closed := by
  cases h with
  | made _ _ _ _ closed => rw [closed]
  | closed server _ _ closed => exact closed ▸ List.prefix_append _ _
  | same _ closed => rw [closed]

theorem Sound.closed_extends (h : Sound r n) (deeds : List (Deed r)) :
    n.closed <+: (Registry.run n deeds).closed := by
  induction deeds generalizing n with
  | nil => exact List.prefix_rfl
  | cons d deeds ih =>
    exact (h.change_after d).closed_extends.trans (ih (h.change (h.change_after d)))

theorem Sound.shown_run_iff (h : Sound r n) (deeds : List (Deed r)) {id : Nat}
    (hid : id < n.count) :
    r.shown (Registry.run n deeds).state = some (.connections id) ↔
      r.shown n.state = some (.connections id) ∧ (Registry.run n deeds).closed = n.closed := by
  induction deeds generalizing n with
  | nil => exact (and_iff_left rfl).symm
  | cons d deeds ih =>
    have hchange := h.change_after d
    have hafter := h.change hchange
    refine (ih hafter (hid.trans_le hchange.count_le)).trans ?_
    rw [hchange.shown_iff hid, and_assoc]
    refine and_congr_right fun _ => ⟨fun ⟨hfirst, hrest⟩ => hrest.trans hfirst, fun hall => ?_⟩
    have hfirst : (after n d).closed = n.closed :=
      (hall ▸ hafter.closed_extends deeds).eq_of_length_le hchange.closed_extends.length_le
    exact ⟨hfirst, hall.trans hfirst.symm⟩

/-- The gauge reads a server that is made just if it was not registered before. -/
theorem Sound.reads_make_iff (h : Sound r n) {o : ServerOptions} {desk : Worker.Desk σ}
    (shares : desk.metrics = r.toPart)
    (hserver : (Server.create machine n.count o desk n.state).result = .ok server) :
    r.Reads (after n (.make machine o desk shares)).state server ↔ r.shown n.state = none := by
  obtain ⟨hid, hmetrics, state, hafter, hshown⟩ := after_make_of_ok shares hserver
  rw [hafter, reads_iff hmetrics, hshown, hid, Option.or_eq_some_iff]
  constructor
  · rintro (hother | ⟨hnone, -⟩)
    · -- No server that lives has the number of the new one.
      obtain ⟨other, hmem, hsame⟩ := h.shown _ hother
      have := h.fresh other (List.mem_append_left _ hmem)
      rw [Gauge.connections.inj hsame] at this
      exact absurd this (Nat.lt_irrefl _)
    · exact hnone
  · exact fun hnone => .inr ⟨hnone, rfl⟩

/-- It is such work to say how many connections a server has open. -/
theorem leaves_setOpen (h : server.metrics = r.toPart) (count : Nat) :
    (server.setOpen count).Leaves r.shown := by
  intro s
  rw [Server.setOpen, h]
  change (r.get (r.set _ s)).gauges.get? _ = _
  rw [r.get_set]
  rfl

theorem sound_start (hs : r.shown s = none) : Sound r (start s) :=
  ⟨nofun, nofun, nofun, fun _ hg => nomatch hs.symm.trans hg⟩

/-- The gauge of connections follows the servers around a registry. If it is registered it reads
    one that lives, and it never reads one that was closed. A server that is made is read from
    then on if the gauge was not registered before, and it goes on being read until a server is
    closed, itself or any other one. -/
theorem gauge_follows (hs : r.shown s = none) (deeds : List (Deed r)) :
    let n := run (start s) deeds
    (r.shown n.state ≠ none → ∃ server ∈ n.living, r.Reads n.state server) ∧
      (∀ server ∈ n.closed, ¬ r.Reads n.state server) ∧
      (∀ (machine : Net.Machine) (o : ServerOptions) (desk : Worker.Desk σ)
        (shares : desk.metrics = r.toPart) (server : Server σ),
          (Server.create machine n.count o desk n.state).result = .ok server →
          server ∈ (after n (.make machine o desk shares)).living ∧
            (r.Reads (after n (.make machine o desk shares)).state server ↔ r.shown n.state = none)) ∧
      ∀ server ∈ n.living, r.Reads n.state server → ∀ later : List (Deed r),
        (r.Reads (run n later).state server ↔ (run n later).closed = n.closed) := by
  intro n
  have hsound : Sound r n := (sound_start hs).run deeds
  refine ⟨fun hne => ?_, fun server hserver hreads => ?_,
    fun machine o desk shares server hserver => ?_, fun server hserver hreads later => ?_⟩
  · obtain ⟨g, hg⟩ := Option.ne_none_iff_exists'.1 hne
    obtain ⟨server, hserver, rfl⟩ := hsound.shown g hg
    exact ⟨server, hserver, (reads_iff (hsound.shares _ (List.mem_append_left _ hserver))).2 hg⟩
  · rw [reads_iff (hsound.shares _ (List.mem_append_right _ hserver))] at hreads
    obtain ⟨other, hother, hsame⟩ := hsound.shown _ hreads
    exact hsound.apart other hother server hserver (Gauge.connections.inj hsame).symm
  · obtain ⟨-, -, state, hafter, -⟩ := after_make_of_ok shares hserver
    refine ⟨?_, hsound.reads_make_iff shares hserver⟩
    rw [hafter]
    exact List.mem_append_right _ (List.mem_singleton_self _)
  · have hmetrics := hsound.shares server (List.mem_append_left _ hserver)
    rw [reads_iff hmetrics] at hreads ⊢
    rw [hsound.shown_run_iff later (hsound.fresh server (List.mem_append_left _ hserver)),
      and_iff_right hreads]

/-- The registry of an installed server. -/
def installed : Registry Installation := ⟨Installation.metricsPart, fun _ _ => rfl⟩

/-- A server with default options is asked for. -/
def makeDefault : Deed installed := .make .alone {} (Worker.deskOf {} ⟨"pages", 4⟩) rfl

theorem gauge_follows_default :
    ∃ server ∈ (run (start {}) [makeDefault]).living,
      installed.Reads (run (start {}) [makeDefault]).state server ∧
      ∀ later : List (Deed installed),
        (installed.Reads (run (run (start {}) [makeDefault]) later).state server ↔
          (run (run (start {}) [makeDefault]) later).closed = []) := by
  obtain ⟨hregistered, -, -, hstays⟩ := gauge_follows (r := installed) (s := {}) rfl [makeDefault]
  obtain ⟨server, hserver, hreads⟩ := hregistered (by decide +kernel)
  exact ⟨server, hserver, hreads, hstays server hserver hreads⟩

/-- The gauge is not kept as long as the server lives that it reads: a second server, which could
    not register it, takes it away. -/
theorem gauge_not_kept :
    ¬ ∀ (deeds later : List (Deed installed)) (server : Server Installation),
      server ∈ (run (start {}) deeds).living →
      installed.Reads (run (start {}) deeds).state server →
      server ∈ (run (run (start {}) deeds) later).living →
      installed.Reads (run (run (start {}) deeds) later).state server := by
  intro hkept
  have hsound : Sound installed (run (start {}) [makeDefault]) := (sound_start rfl).run _
  have hshown : installed.shown (run (start {}) [makeDefault]).state = some (.connections 0) := by
    decide +kernel
  obtain ⟨server, hserver, hid⟩ := hsound.shown _ hshown
  have hmetrics := hsound.shares server (List.mem_append_left _ hserver)
  have hliving : (run (run (start {}) [makeDefault]) [makeDefault, .close 1]).living =
      (run (start {}) [makeDefault]).living := rfl
  rw [hid, ← reads_iff hmetrics] at hshown
  have hreads := hkept [makeDefault] [makeDefault, .close 1] server hserver hshown
    (by rw [hliving]; exact hserver)
  rw [reads_iff hmetrics] at hreads
  have hgone : installed.shown
      (run (run (start {}) [makeDefault]) [makeDefault, .close 1]).state = none := by
    decide +kernel
  cases hgone.symm.trans hreads

end Registry

end PageServer
