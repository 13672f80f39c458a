import Epistle.Address.Entries
import Epistle.Address.Format
import Epistle.Address.Mailbox
import Epistle.Address.Recipient
import Epistle.Email.Basic
import Epistle.Email.Compose
import Epistle.Email.Read
import Epistle.Email.Render
import Epistle.Email.Reply
import Epistle.Email.Skeleton
import Epistle.Email.Step
import Epistle.Error
import Epistle.Header.EncodedWord
import Epistle.Header.Field
import Epistle.Header.Name
import Epistle.Header.Parameter
import Epistle.Header.Token
import Epistle.Inspect
import Epistle.Mime.Body
import Epistle.Mime.Date
import Epistle.Mime.Entity
import Epistle.Mime.Mint
import Epistle.Mime.Part
import Epistle.Mime.Resource
import Epistle.Settings.Datum
import Epistle.Settings.Defaults
import Epistle.Settings.Proxy
import Epistle.Signing
import Epistle.Text.Basic
import Epistle.Text.Blank
import Epistle.Text.Case
import Epistle.Text.Charset
import Epistle.Text.Dictionary
import Epistle.Text.Quoted
import Epistle.Text.Split
import Epistle.Text.Utf8
import Epistle.Toml.Document
import Epistle.Toml.Scalar
import Epistle.Toml.Table
import Epistle.Transfer.Base64
import Epistle.Transfer.LineEnding
import Epistle.Transfer.Percent
import Epistle.Transfer.QuotedPrintable
import Epistle.Proofs.Header.Block
import Epistle.Proofs.Text.Class
import Epistle.Proofs.Transfer.Base64
import Epistle.Proofs.Header.EncodedWord
import Epistle.Proofs.Address.Recipient
import Epistle.Proofs.Mime.Resource
import Epistle.Proofs.Text.Dictionary
import Epistle.Proofs.Email.Setters
import Epistle.Proofs.Email.Session
import Epistle.Proofs.Email.Sound
import Epistle.Proofs.Email.Reading
import Epistle.Proofs.Email.Invariant
import Epistle.Proofs.Email.WellFormed
import Epistle.Proofs.Email.Secrecy
import Epistle.Proofs.Header.Field
import Epistle.Proofs.Address.Format
import Epistle.Proofs.Mime.Part
import Epistle.Proofs.Email.Rendering
import Epistle.Proofs.Header.Token
import Epistle.Proofs.Header.Words
import Epistle.Proofs.Email.Skeleton
import Epistle.Proofs.Address.Machine
import Epistle.Proofs.Address.Spelling
import Epistle.Proofs.Email.Lookup
import Epistle.Proofs.Email.HeaderRoundTrip
import Epistle.Proofs.Email.Recipients
import Epistle.Proofs.Header.Parameter
import Epistle.Proofs.Mime.Content
import Epistle.Proofs.Mime.Delimiter
import Epistle.Proofs.Mime.Name
import Epistle.Proofs.Mime.Leaf
import Epistle.Proofs.Mime.Framing
import Epistle.Proofs.Email.Conservation
import Epistle.Proofs.Email.Leaves
import Epistle.Proofs.Email.Pieces
import Epistle.Proofs.Email.Resources
import Epistle.Proofs.Email.BodyRoundTrip
import Epistle.Proofs.Email.Replies
import Epistle.Proofs.Email.Leniency
import Epistle.Proofs.Email.Thread
import Epistle.Proofs.Email.Nesting
import Epistle.Proofs.Email.Forwards
import Epistle.Proofs.Email.Minted
import Epistle.Proofs.Email.Addressees
import Epistle.Proofs.Address.Entries
import Epistle.Proofs.Address.LocalOnly
import Epistle.Proofs.Address.Agreement
import Epistle.Proofs.Email.HeaderText
import Epistle.Proofs.Transfer.WireLines
import Epistle.Proofs.Transfer.Expansion
import Epistle.Proofs.Transfer.Alphabet
import Epistle.Proofs.Mime.TextBody
import Epistle.Proofs.Mime.WrappedBody
import Epistle.Proofs.Email.CustomHeaders
import Epistle.Proofs.Email.FileNames
import Epistle.Proofs.Address.Display
import Epistle.Proofs.Address.Occurrences
import Epistle.Proofs.Address.Splitting
import Epistle.Proofs.Email.Batches
import Epistle.Proofs.Email.Quotation
import Epistle.Proofs.Email.Priming
