import LinearScore.Terminal.Basic

/-!
# The closed vocabulary

All terminals whose payload is valid, in a fixed order.

## Main definitions

* `Terminal.vocabulary`: the enumeration
-/

namespace LinearScore.Terminal

/-- The natural numbers from `low` to `high`. -/
def span (low high : Nat) : List Nat := List.range' low (high + 1 - low)

/-- Every terminal of the vocabulary, each once. -/
def vocabulary : List Terminal :=
  [measure, time, measureRest] ++
  (List.range 15).map (fun (n : Nat) => key ((n : Int) - 7)) ++
  ClefSign.all.flatMap (fun sign => (span sign.lines.1 sign.lines.2).map (clef sign)) ++
  (span 1 32).map beats ++
  beatTypes.map beatType ++
  NoteType.all.map noteType ++
  [unprinted, grace, graceSlash, chord, rest, backup, forward] ++
  (span 0 9).flatMap (fun octave => Step.all.map fun step => pitch step octave) ++
  (span 1 8).map voice ++
  (span 1 16).flatMap (fun actual => (span 1 16).map fun normal => ratio ⟨actual, normal⟩) ++
  [dot] ++
  Accidental.all.map accidental ++
  Stem.all.map stem ++
  (span 1 3).map staff ++
  BeamMark.all.map beam ++
  [StartStop.start, StartStop.stop].flatMap (fun e => [tied e, tuplet e, slur e]) ++
  [fermata, arpeggiate, staccato, accent, strongAccent, tenuto, trillMark] ++
  TremoloKind.all.map tremoloKind ++
  (span 1 4).map tremoloMarks

end LinearScore.Terminal
