import Stencil.Proofs.Correctness

/-!
# What runs show

Of a run without hooks there is seen what was written, and what it failed with and
where.  The document of a program tells both.
-/

namespace Stencil

variable {σ : Type}

namespace Outcome

/-- All that was written. -/
def output (o : Outcome σ) : String :=
  String.join o.state.host.written.toList

/-- What the run failed with, and at which place. -/
def failure (o : Outcome σ) : Option (Cause × Option Span) :=
  o.error.map fun e => (e.cause, e.span)

/-- The run wrote what an evaluation writes, and failed where that stops. -/
structure Shows (o : Outcome σ) (e : Evaluation) : Prop where
  output : o.output = e.output
  failure : o.failure = e.stopped.map fun u => (u.cause, some u.span)

end Outcome

namespace Program

variable {c : Setting σ} {p : Program} {world : σ}

theorem shows_of_describes (hc : c.Plain) {e : Evaluation}
    (h : e.Describes [] (State.initial world) (Exec.program c p (State.initial world))) :
    (p.run c world).Shows e := by
  have hadd : ((State.initial world).surface.add e.output).written = e.output :=
    String.empty_append
  cases hresult : Exec.program c p (State.initial world) with
  | ok a s =>
      rw [hresult] at h
      rcases h with ⟨hgoes, _, hsurface⟩
      have hrun : p.run c world = ⟨none, s⟩ := by rw [run, hresult]
      rw [hrun]
      constructor
      · have hwritten := congrArg Surface.written hsurface
        exact hwritten.trans hadd
      · rw [hgoes]
        rfl
  | error fault s =>
      rw [hresult] at h
      rcases h with ⟨u, hstopped, rfl, hwritten⟩
      rw [run_of_error hc hresult]
      constructor
      · exact hwritten.trans hadd
      · rw [hstopped]
        rfl

theorem run_shows (hc : c.Plain) (world : σ) {tokens : List Token} {document : Document}
    (hdocument : Document.ofTokens tokens = .ok document) (hlower : document.lower = .ok p) :
    (p.run c world).Shows (document.evaluate c.environment) := by
  have hindex := Document.nodup_index_of_ofTokens hdocument
  exact shows_of_describes hc (Exec.realizes_program hc hlower hindex (State.initial world) rfl)

theorem run_shows_of_evaluates (hc : c.Plain) (world : σ) {source : String}
    (hcompile : compile source = .ok p) {e : Evaluation}
    (he : (Document.ofTokens (tokenize source)).map (Document.evaluate c.environment) = .ok e) :
    (p.run c world).Shows e := by
  rcases document_of_compile hcompile with ⟨document, hdocument, hlower⟩
  rw [hdocument] at he
  cases he
  exact run_shows hc world hdocument hlower

/-- What a compiled program may fail with is an undefined name. -/
theorem undefined_of_error (hc : c.Plain) (world : σ) {source : String}
    (hcompile : compile source = .ok p) {e : RuntimeError}
    (h : (p.run c world).error = some e) : ∃ u : Undefined, e.cause = u.cause := by
  rcases document_of_compile hcompile with ⟨document, hdocument, hlower⟩
  have hfailure := (run_shows hc world hdocument hlower).failure
  rw [Outcome.failure, h] at hfailure
  cases hstopped : (document.evaluate c.environment).stopped with
  | none =>
      rw [hstopped] at hfailure
      cases hfailure
  | some u =>
      rw [hstopped] at hfailure
      exact ⟨u, congrArg Prod.fst (Option.some.inj hfailure)⟩

end Program

end Stencil
