import PageServer.Load.Service
import PageServer.Pages.Local
import PageServer.Proofs.Act

/-!
# What is left as it is

A file system or a page store may leave what is seen of a state: whatever it is asked for,
this is the same afterwards (`FileSystem.Leaves`, `PageStore.Leaves`). It does so if it
works on another part of the state. If both do, and the load service is another part as
well, so do the loads at work (`Workplace.Leaves.step`).
-/

namespace PageServer

variable {σ τ ρ : Type} {view : σ → ρ}

/-- Every call of the file system leaves what is seen of the state. -/
structure FileSystem.Leaves (fs : FileSystem σ) (view : σ → ρ) : Prop where
  list : ∀ path, (fs.list path).Leaves view
  status : ∀ path, (fs.status path).Leaves view
  openFile : ∀ path, (fs.openFile path).Leaves view
  read : ∀ file position length, (fs.read file position length).Leaves view

/-- A file system on one part of the state leaves the others. -/
theorem FileSystem.leaves_within {part : Part σ τ} (h : ∀ t s, view (part.set t s) = view s)
    (fs : FileSystem τ) : (fs.within part).Leaves view where
  list _ := Act.leaves_within h _
  status _ := Act.leaves_within h _
  openFile _ := Act.leaves_within h _
  read _ _ _ := Act.leaves_within h _

/-- Every call of the page store leaves what is seen of the state. -/
structure PageStore.Leaves (ps : PageStore σ) (view : σ → ρ) : Prop where
  write : ∀ id index data, (ps.write id index data).Leaves view
  locate : ∀ id index, (ps.locate id index).Leaves view

/-- Pages on one part of the state leave the others. -/
theorem LocalPages.leaves_store {part : Part σ Disk} (h : ∀ t s, view (part.set t s) = view s)
    (p : LocalPages) : (p.store part).Leaves view where
  write _ _ _ := Act.leaves_within h _
  locate _ _ := fun _ => rfl

namespace Load

/-- The loads at work leave what is seen of the state. -/
structure Workplace.Leaves (w : Workplace σ) (view : σ → ρ) : Prop where
  files : w.files.Leaves view
  pages : w.pages.Leaves view
  service : ∀ t s, view (w.service.set t s) = view s

namespace Workplace.Leaves

variable {w : Workplace σ}

theorem perform (h : w.Leaves view) (path : Bytes) (c : Call) : (w.perform path c).Leaves view := by
  cases c with
  | status p => exact h.files.status p
  | list p => exact h.files.list p
  | openFile p => exact h.files.openFile p
  | read file position length => exact h.files.read file position length
  | isCached id index =>
    exact Act.leaves_bind (h.pages.locate id index) fun _ => Act.leaves_pure _
  | writePage id index data => exact h.pages.write id index data
  | isStopped => exact Act.leaves_within h.service _
  | update f => exact Act.leaves_within h.service _
  | warn message => exact Act.leaves_record _ _

theorem step (h : w.Leaves view) : w.step.Leaves view := by
  rw [Workplace.step]
  refine Act.leaves_bind (Act.leaves_within h.service _) fun s => ?_
  split
  · split
    · exact Act.leaves_pure _
    · exact Act.leaves_within h.service _
  · exact Act.leaves_bind (Act.leaves_attempt (h.perform _ _)) fun _ =>
      Act.leaves_within h.service _
  · exact Act.leaves_within h.service _

theorem loader (h : w.Leaves view) (path : Bytes) (o : LoadOptions) :
    (w.loader.load path o).Leaves view := Act.leaves_within h.service _

end Workplace.Leaves

/-- The service is a part of the state of its own, apart from the files and the pages. -/
structure Workplace.Apart (w : Workplace σ) : Prop where
  files : w.files.Leaves w.service.get
  pages : w.pages.Leaves w.service.get
  get_set : ∀ t s, w.service.get (w.service.set t s) = t
  set_get : ∀ s, w.service.set (w.service.get s) s = s
  set_set : ∀ t t' s, w.service.set t (w.service.set t' s) = w.service.set t s

end Load

end PageServer
