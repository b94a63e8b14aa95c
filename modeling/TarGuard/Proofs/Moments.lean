import TarGuard.Proofs.Extract
import TarGuard.Proofs.Points

namespace TarGuard

open FileSystem

variable {source : Source} {destination : Path} {fs fs' : FileSystem}

-- What is left of the destination is what was made, whether it is a directory in the end or not.
theorem Destination.finalState_prepare (root : Path) (fs : FileSystem) :
    finalState (prepare root) fs = finalState (makeDirectories root) fs := by
  simp only [finalState, prepare, bind, EStateM.bind, EStateM.adaptExcept, get, getThe,
    MonadStateOf.get, get_apply]
  cases makeDirectories root fs with
  | ok a fs' =>
    simp only
    by_cases hd : fs'.isDirectoryAt root <;> simp [hd] <;> rfl
  | error e fs' => rfl

theorem Destination.grows_makeDirectories {names : List String} {p : Path} (fs : FileSystem)
    (ho : AllOrdinary names)
    (hp : p ∈ pathTo names :: (pathTo names).parents) :
    Grows ((finalState (makeDirectories p) fs).IsPart names) fs
      (finalState (makeDirectories p) fs) := by
  rw [parents_pathTo ho] at hp
  have ⟨q, hq, he⟩ := List.mem_map.mp hp
  have hs := (List.mem_tails q names).mp hq
  have hm := makeDirectories_ends fs (AllOrdinary.suffix ho hs)
  subst he
  cases hx : makeDirectories (pathTo q) fs with
  | ok a fs' =>
    rw [finalState_of_ok hx]
    exact (hm.of_ok hx).mono fun l node hw => hw.mono hs
  | error e fs' =>
    rw [finalState_of_error hx]
    exact (hm.of_error hx).mono fun l node hw => hw.isPart.mono hs

namespace Extractor

structure Finishes (x : Extractor) (source : Source) (destination : Path) (fs : FileSystem)
    (names : List String) (base : Location) (s : Session) (hs : List Header) (t : Session) :
    Prop where
  begins  : Begins source destination fs names base s
  reaches : ∃ u, x.Reaches (pathTo names) s hs .ready u ∧
    x.step (pathTo names) .ready u = .ok none t

-- At some time these records are done, this was counted, and the file system is this. As long as
-- the destination is not there, directories are made for the paths above it.
inductive Moment (x : Extractor) (source : Source) (destination : Path) (fs : FileSystem) :
    List Header → Summary → FileSystem → Prop
  | start : Moment x source destination fs [] {} fs
  | preparing {root p} : Destination.root fs destination = .ok root → p ∈ root :: root.parents →
    Moment x source destination fs [] {} (finalState (makeDirectories p) fs)
  | point {names base s hs p t} : Begins source destination fs names base s →
    x.Reaches (pathTo names) s hs p t → Moment x source destination fs hs t.summary t.files
  | failure {names base s hs p t e u} : Begins source destination fs names base s →
    x.Reaches (pathTo names) s hs p t → x.step (pathTo names) p t = .error e u →
    Moment x source destination fs hs u.summary u.files
  | done {names base s hs t} : x.Finishes source destination fs names base s hs t →
    Moment x source destination fs hs t.summary t.files

variable {x : Extractor}

theorem Succeeds.finishes {names : List String} {base : Location} {s u t : Session}
    (h : x.Succeeds source destination fs names base s u t) :
    ∃ hs, x.Finishes source destination fs names base s hs t := by
  have ho := h.begins.leads.ordinary
  have ⟨n, hp⟩ := h.passes
  have ⟨hs, hr⟩ := hp.reaches ho .start
  exact ⟨hs, h.begins, u, hr, (hr.record_ends ho).of_ok h.last⟩

theorem Fails.moment {e : ExtractError} (h : x.Fails source destination fs e fs') :
    ∃ hs summary, x.Moment source destination fs hs summary fs' := by
  cases h with
  | opening | root => exact ⟨[], {}, .start⟩
  | preparing _ ho hr hp =>
    refine ⟨[], {}, ?_⟩
    rw [← finalState_of_error hp, Destination.finalState_prepare]
    exact .preparing hr List.mem_cons_self
  | record hb hp hu =>
    have ho := hb.leads.ordinary
    have ⟨hs, hr⟩ := hp.reaches ho .start
    have ⟨hs', q, v, hr', hx⟩ := (hr.record_ends ho).of_error hu
    exact ⟨hs', _, .failure hb hr' hx⟩

theorem extract_moment (x : Extractor) (source : Source) (destination : Path) (fs : FileSystem) :
    Ends (x.extract source destination) fs
      (fun summary fs' => ∃ names base s hs t, x.Finishes source destination fs names base s hs t ∧
        summary = t.summary ∧ fs' = t.files)
      (fun _ fs' => ∃ hs summary, x.Moment source destination fs hs summary fs') := by
  refine (extract_ends x source destination fs).imp ?_ fun _ _ h => h.moment
  intro summary fs' ⟨names, base, s, u, t, h, hs, ht⟩
  have ⟨hs', hf⟩ := h.finishes
  exact ⟨names, base, s, hs', t, hf, hs, ht⟩

end Extractor
end TarGuard
