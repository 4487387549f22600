import Glyph.CommandLine
import Glyph.Env.Command
import Glyph.Main
import Glyph.Proofs.Dyadic.Exchange
import Glyph.Proofs.Effect.Frame
import Glyph.Proofs.Effect.Reads
import Glyph.Proofs.Effect.Writes
import Glyph.Proofs.Joining.Program
import Glyph.Proofs.Joining.Stopping
import Glyph.Proofs.Literal.Float
import Glyph.Proofs.Literal.Unambiguous
import Glyph.Proofs.Parser.Places
import Glyph.Proofs.Reduce.Concatenation
import Glyph.Proofs.Reduce.Neutral
import Glyph.Proofs.Reduce.Projection
import Glyph.Proofs.Selection.Replicate
import Glyph.Proofs.Store.Chronicle
import Glyph.Proofs.Token.Numeral
import Glyph.Proofs.Token.Spacing
import Glyph.Proofs.Value.Conversion
import Glyph.Proofs.Value.Validation
