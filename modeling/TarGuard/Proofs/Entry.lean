import TarGuard.Proofs.Next
import TarGuard.Proofs.OutputFile
import TarGuard.Proofs.SecureDirectory

namespace TarGuard

open FileSystem OutputFile SecureDirectory Extraction

def ExtractError.fillErrors : List ExtractError :=
  [.interrupted, .readFailed, .writeFailed, .diskFull]

theorem ExtractError.mem_fillErrors (failure : Failure) : failure.error ∈ fillErrors := by
  rcases failure.error_eq with he | he <;> simp [fillErrors, he]

theorem ExtractError.not_mem_refusals {e : ExtractError} (h : e ∈ fillErrors) :
    e ∉ refusals := by
  simp only [fillErrors, List.mem_cons, List.not_mem_nil, or_false] at h
  rcases h with rfl | rfl | rfl | rfl <;> decide

namespace Extractor

variable {x : Extractor} {s : Session} {fs : FileSystem} {base : Location}
  {root trail above : List String} {name : String}

def fillOrDiscard (x : Extractor) (file : OutputFile) (size : UInt64) : Extraction Unit :=
  withCleanUp (fun s => { s with files := file.discard s.files }) (x.fillFile file size)

def copyChunk (x : Extractor) (file : OutputFile) (left : Nat) : Extraction Unit := do
  x.checkCancelled
  let bytes ← onInput (Input.readChunk (min left chunkSize))
  x.onOutput (OutputFile.write · file bytes)

theorem copyPayload_zero {file : OutputFile} : x.copyPayload file 0 = pure () := by
  rw [copyPayload, if_pos rfl]

theorem copyPayload_eq {file : OutputFile} {left : Nat} (hl : left ≠ 0) :
    x.copyPayload file left =
      x.copyChunk file left >>= fun _ => x.copyPayload file (left - chunkSize) := by
  rw [copyPayload, if_neg hl]
  simp [copyChunk]

theorem copyChunk_ends {file : OutputFile} {content : List UInt8} (left : Nat)
    (hfree : IsFree fs file.location) (hs : s.files = holding fs file.location content) :
    Ends (x.copyChunk file left) s
      (fun _ t => ∃ bytes input, bytes.length = min left chunkSize ∧ s.input.Delivers bytes input ∧
        t = { s with files := holding fs file.location (content ++ bytes), input := input })
      (fun e t => ∃ content input,
        t = { s with files := holding fs file.location content, input := input } ∧
        e ∈ ExtractError.fillErrors) := by
  refine (checkCancelled_ends x s).bind ?cancelled ?polled
  case cancelled =>
    intro e t ⟨he, ht⟩
    exact ⟨content, s.input, by rw [ht, ← hs], by simp [he, ExtractError.fillErrors]⟩
  case polled =>
    intro _ t ht
    subst ht
    refine (Ends.onInput (Input.readChunk_ends _ t.input)).bind ?broken ?read
    case broken =>
      intro e u ⟨input, he, hu⟩
      exact ⟨content, input, by rw [hu, ← hs], by simp [he, ExtractError.fillErrors]⟩
    case read =>
      intro bytes u ⟨input, ⟨hlen, hd⟩, hu⟩
      subst hu
      refine (Ends.onOutput (hs ▸ write_holding_ends _ file.path hfree content bytes)).imp ?_ ?_
      · rintro _ u ⟨files, rfl, rfl⟩
        exact ⟨bytes, input, hlen, hd, rfl⟩
      · rintro e u ⟨files, ⟨failure, -, rfl, rfl⟩, rfl⟩
        exact ⟨_, input, rfl, ExtractError.mem_fillErrors failure⟩

theorem copyPayload_ends {file : OutputFile} {content : List UInt8} (left : Nat)
    (hfree : IsFree fs file.location) (hs : s.files = holding fs file.location content) :
    Ends (x.copyPayload file left) s
      (fun _ t => ∃ bytes input, bytes.length = left ∧ s.input.Delivers bytes input ∧
        t = { s with files := holding fs file.location (content ++ bytes), input := input })
      (fun e t => ∃ content input,
        t = { s with files := holding fs file.location content, input := input } ∧
        e ∈ ExtractError.fillErrors) := by
  induction left using copyPayload.induct generalizing s content with
  | case1 =>
    rw [copyPayload_zero]
    refine Ends.pure ⟨[], s.input, rfl, .nil _, ?_⟩
    rw [List.append_nil, ← hs]
  | case2 left hl ih =>
    rw [copyPayload_eq hl]
    refine (copyChunk_ends left hfree hs).bind ?stopped ?copied
    case stopped =>
      intro e t h
      exact h
    case copied =>
      intro _ t ⟨bytes, input, hlen, hd, ht⟩
      subst ht
      refine (ih rfl).imp ?_ ?_
      · intro _ u ⟨more, last, hm, hd', hu⟩
        subst hu
        refine ⟨bytes ++ more, last, ?_, hd.append hd', by rw [List.append_assoc]⟩
        rw [List.length_append, hlen, hm]
        omega
      · intro e u ⟨content, last, hu, he⟩
        subst hu
        exact ⟨content, last, rfl, he⟩

theorem fillFile_ends {file : OutputFile} (size : UInt64) (hfree : IsFree fs file.location)
    (hs : s.files = holding fs file.location []) :
    Ends (x.fillFile file size) s
      (fun _ t => ∃ bytes pad input, bytes.length = size.toNat ∧
        pad.length = (padding size).toNat ∧ s.input.Delivers (bytes ++ pad) input ∧
        t = { s with files := holding fs file.location bytes, input := input })
      (fun e t => ∃ content input,
        t = { s with files := holding fs file.location content, input := input } ∧
        e ∈ ExtractError.fillErrors) := by
  refine (copyPayload_ends size.toNat hfree hs).bind (fun _ _ h => h) ?_
  rintro _ t ⟨bytes, input, hb, hd, rfl⟩
  refine (Ends.onInput (Input.skip_ends _ input)).imp ?_ ?_
  · rintro _ t ⟨last, ⟨pad, hp, hd'⟩, rfl⟩
    exact ⟨bytes, pad, last, hb, hp, hd.append hd', rfl⟩
  · rintro e t ⟨last, rfl, rfl⟩
    exact ⟨bytes, last, rfl, by simp [ExtractError.fillErrors]⟩

theorem fillOrDiscard_ends (hl : fs.Leads root base) (hn : IsOrdinary name)
    (hz : '\x00' ∉ name.toList) (hf : Fits root name) (hfree : IsFree fs (name :: base))
    (hs : s.files = holding fs (name :: base) []) (size : UInt64) :
    Ends (x.fillOrDiscard ⟨pathTo (name :: root), name :: base⟩ size) s
      (fun _ t => ∃ bytes pad input, bytes.length = size.toNat ∧
        pad.length = (padding size).toNat ∧ s.input.Delivers (bytes ++ pad) input ∧
        t = { s with files := holding fs (name :: base) bytes, input := input })
      (fun e t => ∃ input, t = { s with files := fs, input := input } ∧
        e ∈ ExtractError.fillErrors) := by
  refine Ends.withCleanUp ((fillFile_ends size hfree hs).imp (fun _ _ h => h) ?_)
  rintro e u ⟨content, input, rfl, he⟩
  refine ⟨input, ?_, he⟩
  simp only [discard_holding hl hn hz hf hfree]

section WriteFile

variable (h : s.files.Leads root base) (ho : AllOrdinary (name :: above))
  (hz : ∀ n ∈ name :: above, '\x00' ∉ n.toList)

include h ho hz

-- A file that is to be written can not be made, or it is made and then filled. This depends only on
-- what is there, and on how the system fails at this point of the stream.
theorem writeFile_cases (failure? : Option Failure) (size : UInt64) :
    (∃ e files, Grows (IsOnTrail base above) s.files files ∧
      (e = .linkDetected ∧ files = s.files ∨ e = .directoryFailed ∨ e = .writeFailed ∨
        e = .diskFull) ∧
      ∀ x : Extractor, x.failure? s.input.delivered = failure? →
        x.writeFile (pathTo root) (pathTo (name :: (above ++ root))) size s =
          .error e { s with files := files }) ∨
    ∃ files, Grows (IsOnTrail base above) s.files files ∧
      files.Leads (above ++ root) (above ++ base) ∧ Fits (above ++ root) name ∧
      IsFree files (name :: (above ++ base)) ∧
      ∀ x : Extractor, x.failure? s.input.delivered = failure? →
        x.writeFile (pathTo root) (pathTo (name :: (above ++ root))) size s =
          x.fillOrDiscard ⟨pathTo (name :: (above ++ root)), name :: (above ++ base)⟩ size
            { s with files := holding files (name :: (above ++ base)) [] } := by
  have hzn := hz name List.mem_cons_self
  have hza : ∀ n ∈ above, '\x00' ∉ n.toList := fun n hn => hz n (List.mem_cons_of_mem _ hn)
  simp only [writeFile, makeParent_cons ((ho.tail.append h.ordinary).cons ho.head)]
  have hmake := make_ends h ho.tail
  cases hm : make (pathTo root) (pathTo (above ++ root)) s.files with
  | error e files =>
    have ⟨g, he⟩ := hmake.of_error hm
    have g := g.mono fun _ _ hw => hw.mono (List.tail_suffix above)
    exact .inl ⟨e, files, g, he.imp_right .inl, fun _ _ => bind_of_error (onFiles_of_error hm)⟩
  | ok _ files =>
    have ⟨g, hl⟩ := hmake.of_ok hm
    have hcreate := create_ends failure? hl ho.head hzn
    cases hc : create failure? (pathTo (name :: (above ++ root))) files with
    | error e files' =>
      obtain ⟨rfl, he⟩ := hcreate.of_error hc
      refine .inl ⟨e, files', g, ?_, fun x hx => ?_⟩
      · rcases he with ⟨rfl, link, hlink⟩ | rfl | ⟨failure, -, rfl⟩
        · exact .inl ⟨rfl, eq_of_obstacle g hlink (by simp [Node.isDirectory])⟩
        · exact .inr (.inr (.inl rfl))
        · exact .inr (.inr failure.error_eq)
      · subst hx
        exact (bind_of_ok (onFiles_of_ok hm)).trans (bind_of_error (onOutput_of_error hc))
    | ok file files' =>
      obtain ⟨rfl, -, hf, hfree, rfl⟩ := hcreate.of_ok hc
      refine .inr ⟨files, g, hl, hf, hfree, fun x hx => ?_⟩
      subst hx
      exact (bind_of_ok (onFiles_of_ok hm)).trans (bind_of_ok (onOutput_of_ok hc))

theorem writeFile_ends (size : UInt64) :
    Ends (x.writeFile (pathTo root) (pathTo (name :: (above ++ root))) size) s
      (fun _ t => ∃ files bytes pad input, Grows (IsOnTrail base above) s.files files ∧
        IsFree files (name :: (above ++ base)) ∧
        (holding files (name :: (above ++ base)) bytes).locate .status
          (pathTo (name :: (above ++ root))) = .ok (name :: (above ++ base)) ∧
        bytes.length = size.toNat ∧
        pad.length = (padding size).toNat ∧ s.input.Delivers (bytes ++ pad) input ∧
        t = { s with files := holding files (name :: (above ++ base)) bytes, input := input })
      (fun e t => ∃ files input, Grows (IsOnTrail base above) s.files files ∧
        t = { s with files := files, input := input } ∧
        (e = .linkDetected ∧ files = s.files ∨ e = .directoryFailed ∨
          e ∈ ExtractError.fillErrors)) := by
  have hzn := hz name List.mem_cons_self
  rcases writeFile_cases h ho hz _ size with ⟨e, files, g, he, hx⟩ | ⟨files, g, hl, hf, hfree, hx⟩
  · refine Ends.of_eq_error (hx x rfl) ⟨files, s.input, g, rfl, ?_⟩
    refine he.imp_right fun he => he.imp_right fun he => ?_
    rcases he with rfl | rfl <;> simp [ExtractError.fillErrors]
  · rw [Ends, hx x rfl, ← Ends]
    refine (fillOrDiscard_ends hl ho.head hzn hf hfree rfl size).imp ?_ ?_
    · rintro _ u ⟨bytes, pad, input, hb, hp, hd, rfl⟩
      exact ⟨files, bytes, pad, input, g, hfree, locate_holding hl ho.head hzn hf hfree, hb, hp, hd,
        rfl⟩
    · rintro e u ⟨input, rfl, he⟩
      exact ⟨files, input, g, rfl, .inr (.inr he)⟩

end WriteFile

end Extractor
end TarGuard
