import TemplateKit.Proofs.Bytes.Split
import TemplateKit.Proofs.Bytes.Stream
import TemplateKit.Date.Export
import TemplateKit.Pattern.Regex.Sift
import TemplateKit.Proofs.Checksum
import TemplateKit.Proofs.Date.Header
import TemplateKit.Proofs.Container.HashWalk
import TemplateKit.Proofs.Template.ExprRoundTrip
import TemplateKit.Proofs.Template.Late
import TemplateKit.Proofs.Request.Cookie
import TemplateKit.Proofs.Template.MacroCall
import TemplateKit.Proofs.Template.Structure
import TemplateKit.Proofs.Request.Host
import TemplateKit.Proofs.Request.Refusal
import TemplateKit.Proofs.Template.Concatenation
import TemplateKit.Proofs.Template.SelfContained
import TemplateKit.Proofs.Template.PassedOver
import TemplateKit.Proofs.Template.Recursion
import TemplateKit.Proofs.Template.Control
import TemplateKit.Proofs.Template.Arithmetic
import TemplateKit.Proofs.Container.DictionaryWalk
import TemplateKit.Proofs.Storage.Versions
import TemplateKit.Proofs.Escape.Scheme
import TemplateKit.Proofs.Data.Layered
import TemplateKit.Proofs.Data.MultiLine
import TemplateKit.Proofs.Data.StraightLinks
import TemplateKit.Proofs.Html.FromText
import TemplateKit.Proofs.Template.Registration
import TemplateKit.Proofs.Pattern.Glob
