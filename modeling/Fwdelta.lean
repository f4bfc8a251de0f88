import Fwdelta.Cli.Arguments
import Fwdelta.Cli.Attest
import Fwdelta.Cli.Coverage
import Fwdelta.Cli.Listing
import Fwdelta.Cli.Texts
import Fwdelta.Cli.Sha256
import Fwdelta.Engine.AddressText
import Fwdelta.Engine.Explain
import Fwdelta.Engine.HtmlTags
import Fwdelta.Engine.Insertion
import Fwdelta.Engine.Merging
import Fwdelta.Engine.Omissions
import Fwdelta.Engine.Pairing
import Fwdelta.Engine.Renaming
import Fwdelta.Engine.Reorder
import Fwdelta.Engine.Reported
import Fwdelta.Engine.Timestamp
import Fwdelta.Engine.Unrendered
import Fwdelta.Engine.Verify
import Fwdelta.Ir.PrefixCover
import Fwdelta.Kerneldiff.SelfTest
import Fwdelta.Nft.Documented
import Fwdelta.Nft.Obligations
import Fwdelta.Nft.Positions
import Fwdelta.Nft.Quoted
import Fwdelta.Policy.Ignored
