import LiteralCodec.Proofs.Canonical
import LiteralCodec.Proofs.Decimal.Literal
import LiteralCodec.Proofs.Decimal.Tie
import LiteralCodec.Proofs.Decoding
import LiteralCodec.Proofs.Endings
import LiteralCodec.Proofs.FewestDigits
import LiteralCodec.Proofs.Fixed.Hexfloat
import LiteralCodec.Proofs.Fixed.Narrowing
import LiteralCodec.Proofs.Fixed.Value
import LiteralCodec.Proofs.Fixed.Word
import LiteralCodec.Proofs.Forms
import LiteralCodec.Proofs.Hexfloat.Lossless
import LiteralCodec.Proofs.Integer.Literal
import LiteralCodec.Proofs.Lines
import LiteralCodec.Proofs.Mask.Flags
import LiteralCodec.Proofs.Scientific.Notation
import LiteralCodec.Proofs.Sign
import LiteralCodec.Proofs.Token.Groups
import LiteralCodec.Proofs.Token.Machine
import LiteralCodec.Proofs.Token.Quotes
